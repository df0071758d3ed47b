import MCache.RaftElectionSteps

/-!
# Replication steps

The leader's side of replication: heartbeats, proposals and the responses to
append requests.  The commit index moves to an entry of the current term that
a majority has acknowledged.
-/

namespace MCache.Consensus

open History

variable {C : Type}
variable {k : ℕ} {e : Effect C} {r : Raft C} {keys : List (ℕ × ℕ × ℕ)}

theorem Log.get_eq_some_iff {l : Log C} {e : LogEntry C} :
    l.get k = some e ↔ 0 < k ∧ l.entries[k]? = some e := by
  unfold Log.get
  split
  · rename_i hout
    constructor
    · intro hnone
      cases hnone
    · rintro ⟨hpos, hget⟩
      obtain ⟨hlt, _⟩ := List.getElem?_eq_some_iff.mp hget
      omega
  · rename_i hin
    constructor
    · exact fun hget => ⟨by omega, hget⟩
    · exact fun hboth => hboth.2

theorem Log.truncate_entries (l : Log C) (k : ℕ) : (l.truncate k).entries = l.entries.take k := by
  unfold Log.truncate
  split
  · rfl
  · rw [List.take_of_length_le (by omega)]

theorem Log.slice_eq (l : Log C) {next : ℕ} (hnext : 0 < next) :
    l.slice next (next + 100) = (l.entries.drop next).take 100 := by
  simp only [Log.slice, if_neg (show ¬ next < 1 by omega)]
  by_cases hlen : l.entries.length < next + 100
  · simp only [if_pos hlen]
    split
    · rw [List.drop_eq_nil_of_le (by omega), List.take_nil]
    · rw [List.take_of_length_le (by simp), List.take_of_length_le (by simp; omega)]
  · simp only [if_neg hlen, if_neg (show ¬ next + 100 ≤ next by omega), Nat.add_sub_cancel_left]

theorem mem_applyFrom {log : Log C} {rounds lastApplied : ℕ}
    (he : e ∈ Raft.applyFrom log rounds lastApplied) :
    ∃ k ent, lastApplied < k ∧ k ≤ lastApplied + rounds ∧
      log.get k = some ent ∧ e = .apply ⟨ent.index, ent.command⟩ := by
  induction rounds generalizing lastApplied with
  | zero => cases he
  | succ rounds ih =>
    rcases List.mem_append.mp he with hhead | htail
    · cases hget : log.get (lastApplied + 1) with
      | none =>
        rw [hget] at hhead
        cases hhead
      | some ent =>
        rw [hget] at hhead
        exact ⟨lastApplied + 1, ent, by omega, by omega, hget, List.mem_singleton.mp hhead⟩
    · obtain ⟨k, ent, hlt, hle, hget, heq⟩ := ih htail
      exact ⟨k, ent, by omega, by omega, hget, heq⟩

def EffectFollows (safe : Prop) (n : ℕ) (h : RaftHistory C) (i : ℕ) : Effect C → Prop
  | .sendAppendEntries peer req =>
    PacketFollows n h (.appendEntries i peer req) ∧
      (safe → PacketCommits n h (.appendEntries i peer req))
  | .apply msg => safe → MessageSettled n h msg
  | .sendRequestVote _ _ => False
  | .becameLeader _ => False

theorem EffectFollows.packet {safe : Prop} {n : ℕ} {h : RaftHistory C} {i : ℕ}
    (he : EffectFollows safe n h i e) {p : Packet C} (hp : e.packet? i = some p) :
    PacketFollows n h p ∧ (safe → PacketCommits n h p) ∧ p.voteKey = none := by
  cases e with
  | sendAppendEntries peer req =>
    cases hp
    exact ⟨he.1, he.2, rfl⟩
  | sendRequestVote peer req => cases he
  | apply msg => cases hp
  | becameLeader term => cases hp

theorem EffectFollows.no_election {safe : Prop} {n : ℕ} {h : RaftHistory C} {i : ℕ}
    (he : EffectFollows safe n h i e) : e.election? i = none := by
  cases e with
  | becameLeader term => cases he
  | _ => rfl

theorem advanceLoop_spec (r : Raft C) (rest : List (LogEntry C)) (start commit : ℕ) :
    r.advanceLoop rest start commit = commit ∨ ∃ m ent, rest[m]? = some ent ∧
        r.advanceLoop rest start commit = start + m ∧
        ent.term = r.currentTerm ∧
        r.config.peers.length / 2 < r.replicaCount (start + m) := by
  induction rest generalizing start commit with
  | nil => exact .inl rfl
  | cons ent rest ih =>
    unfold Raft.advanceLoop
    split
    · rcases ih (start + 1) commit with hstay | ⟨m, e, hget, heq, hterm⟩
      · exact .inl hstay
      · refine .inr ⟨m + 1, e, hget, ?_, ?_⟩
        · rw [heq]
          omega
        · rwa [show start + 1 + m = start + (m + 1) by omega] at hterm
    · rename_i hcurrent
      split
      · rename_i hmajority
        right
        rcases ih (start + 1) start with hstay | ⟨m, e, hget, heq, hterm⟩
        · exact ⟨0, ent, rfl, hstay, not_not.mp hcurrent, hmajority⟩
        · refine ⟨m + 1, e, hget, ?_, ?_⟩
          · rw [heq]
            omega
          · rwa [show start + 1 + m = start + (m + 1) by omega] at hterm
      · exact .inl rfl

variable [Inhabited C] {safe : Prop} {n i : ℕ}
variable {c : Cluster C} {h : RaftHistory C}

theorem Invariant.effects (hinv : Invariant safe n c h) {effects : List (Effect C)}
    (heffects : ∀ e ∈ effects, EffectFollows safe n h i e) :
    Invariant safe n (c.perform i (c.nodes i, effects)) h := by
  have hpackets : ∀ p ∈ effects.filterMap (Effect.packet? i),
      PacketFollows n h p ∧ (safe → PacketCommits n h p) ∧ p.voteKey = none := by
    intro p hp
    obtain ⟨e, he, hpacket⟩ := List.mem_filterMap.mp hp
    exact (heffects e he).packet hpacket
  have hnodes : (c.perform i (c.nodes i, effects)).nodes = c.nodes := by
    simp [Cluster.perform]
  have hkeys : voteKeys (c.perform i (c.nodes i, effects)).network = voteKeys c.network := by
    simp only [Cluster.perform, voteKeys_append]
    rw [List.append_right_eq_self]
    exact List.filterMap_eq_nil_iff.mpr fun p hp => (hpackets p hp).2.2
  have helections : (c.perform i (c.nodes i, effects)).elections = c.elections := by
    simp only [Cluster.perform]
    rw [List.append_right_eq_self]
    exact List.filterMap_eq_nil_iff.mpr fun e he => (heffects e he).no_election
  constructor
  case sound => exact hinv.sound
  case follows =>
    constructor
    case node =>
      rw [hkeys, hnodes]
      exact hinv.follows.node
    case packet =>
      intro p hp
      rcases List.mem_append.mp hp with hold | hnew
      · exact hinv.follows.packet p hold
      · exact (hpackets p hnew).1
    case keys =>
      rw [hkeys]
      exact hinv.follows.keys
    case leaderLog => exact hinv.follows.leaderLog
    case elections =>
      rw [helections]
      exact hinv.follows.elections
  case commits =>
    intro hsafe
    have hold := hinv.commits hsafe
    constructor
    case complete => exact hold.complete
    case node =>
      rw [hnodes]
      exact hold.node
    case packet =>
      intro p hp
      rcases List.mem_append.mp hp with hmem | hnew
      · exact hold.packet p hmem
      · exact (hpackets p hnew).2.1 hsafe
    case message =>
      intro j msg hmem
      rcases List.mem_append.mp hmem with hmem | hnew
      · exact hold.message j msg hmem
      · obtain ⟨e, he, hmsg⟩ := List.mem_filterMap.mp hnew
        have hfollows := heffects e he
        cases e with
        | apply m =>
          cases hmsg
          exact hfollows hsafe
        | sendAppendEntries peer req => cases hmsg
        | sendRequestVote peer req => cases hmsg
        | becameLeader term => cases hmsg

theorem Invariant.perform {effects : List (Effect C)} (hinv : Invariant safe n (c.withNode i r) h)
    (heffects : ∀ e ∈ effects, EffectFollows safe n h i e) :
    Invariant safe n (c.perform i (r, effects)) h := by
  have hdone := hinv.effects heffects
  rwa [Cluster.withNode_nodes_self, Cluster.withNode_perform] at hdone

theorem NodeFollows.leaderLog_eq (hsound : Sound (members n) h)
    (hnode : NodeFollows n h keys i r) (hstate : r.state = .leader) :
    h.leaderLog r.currentTerm = r.log.entries := by
  have hwon := hnode.leader.mp hstate
  rw [← hnode.cur] at hwon ⊢
  rw [← hsound.won_log i hwon, hnode.log]

theorem NodeFollows.sendAppendEntriesTo (hsound : Sound (members n) h)
    (hnode : NodeFollows n h keys i r) (hstate : r.state = .leader)
    (hcommits : safe → NodeCommits n h r) (peer : ℕ) :
    ∀ e ∈ r.sendAppendEntriesTo peer, EffectFollows safe n h i e := by
  intro e he
  unfold Raft.sendAppendEntriesTo at he
  cases hlookup : r.nextIndex.lookup peer with
  | none =>
    rw [hlookup] at he
    cases he
  | some next =>
    rw [hlookup] at he
    obtain rfl := List.mem_singleton.mp he
    obtain ⟨hpeer, hpos, hlen⟩ := hnode.next hstate peer next hlookup
    have hlog := hnode.leaderLog_eq hsound hstate
    have hprev : next - 1 + 1 = next := by omega
    refine ⟨⟨hpeer.symm, hnode.leader.mp hstate, ?_, ?_⟩, ?_⟩
    · simp only [hlog]
      obtain ⟨prev, hget⟩ : ∃ prev, r.log.entries[next - 1]? = some prev :=
        ⟨_, List.getElem?_eq_getElem (by omega)⟩
      refine ⟨prev, hget, ?_⟩
      by_cases hzero : 0 < next - 1
      · simp [Log.get_eq_some_iff.mpr ⟨hzero, hget⟩, hzero]
      · have hroot := hnode.wellFormed.root
        rw [show next - 1 = 0 by omega, hroot, Option.some.injEq] at hget
        subst prev
        simp [hzero, dummyEntry]
    · simp only [hlog, hprev, Log.slice_eq _ hpos]
      exact List.take_prefix _ _
    · intro hsafe
      have hnodeCommits := hcommits hsafe
      refine ⟨?_, ?_, ?_⟩
      · simpa only [hlog] using hnodeCommits.commit_lt
      · simpa only [hlog] using hnodeCommits.settled
      · intro hempty
        simp only [Log.slice_eq _ hpos, List.take_eq_nil_iff, List.drop_eq_nil_iff] at hempty
        have hlt := hnodeCommits.commit_lt
        change r.commitIndex ≤ next - 1
        omega

theorem NodeFollows.broadcastAppendEntries (hsound : Sound (members n) h)
    (hnode : NodeFollows n h keys i r) (hstate : r.state = .leader)
    (hcommits : safe → NodeCommits n h r) :
    ∀ e ∈ r.broadcastAppendEntries, EffectFollows safe n h i e := by
  intro e he
  obtain ⟨peer, _, hsend⟩ := List.mem_flatMap.mp he
  exact hnode.sendAppendEntriesTo hsound hstate hcommits peer e hsend

theorem Invariant.heartbeatTimeout (hinv : Invariant safe n c h) (hi : i ∈ members n) :
    Invariant safe n (c.perform i (c.nodes i).handleHeartbeatTimeout) h := by
  unfold Raft.handleHeartbeatTimeout
  split
  · exact hinv.effects (by simp)
  · rename_i hstate
    exact hinv.effects ((hinv.follows.node i hi).broadcastAppendEntries
      hinv.sound (not_not.mp hstate) fun hsafe => (hinv.commits hsafe).node i hi)

theorem NodeFollows.applyFrom (hnode : NodeFollows n h keys i r)
    (hcommits : safe → NodeCommits n h r) :
    ∀ e ∈ Raft.applyFrom r.log (r.commitIndex - r.lastApplied) r.lastApplied,
      EffectFollows safe n h i e := by
  intro e he
  obtain ⟨k, ent, hlt, hle, hget, rfl⟩ := mem_applyFrom he
  intro hsafe
  obtain ⟨hpos, hat⟩ := Log.get_eq_some_iff.mp hget
  have hindex := hnode.wellFormed.indexed k ent hat
  refine ⟨hindex ▸ hpos, _, _, ent, (hcommits hsafe).settled, ?_, rfl⟩
  simp only [hindex]
  rw [List.getElem?_take_of_lt (by omega)]
  exact hat

theorem Invariant.bookkeeping (hinv : Invariant safe n c h)
    (hnode : NodeFollows n h (voteKeys c.network) i r)
    (hcommits : safe → NodeCommits n h r) : Invariant safe n (c.withNode i r) h :=
  hinv.withNode (i := i) hinv.sound (fun hsafe => (hinv.commits hsafe).complete) (Extends.refl h)
    (OnlyMoves.refl i h) hinv.follows.leaderLog hnode hcommits

theorem Invariant.applyCommitted (hinv : Invariant safe n c h)
    (hnode : NodeFollows n h (voteKeys c.network) i r)
    (hcommits : safe → NodeCommits n h r) :
    Invariant safe n (c.withNode i r.applyCommitted.1) h ∧
      ∀ e ∈ r.applyCommitted.2, EffectFollows safe n h i e := by
  refine ⟨hinv.bookkeeping { hnode with } ?_, hnode.applyFrom hcommits⟩
  intro hsafe
  have hold := hcommits hsafe
  exact
    { commit_lt := hold.commit_lt
      applied_le := max_le hold.applied_le le_rfl
      settled := hold.settled }

theorem NodeFollows.chosen {ent : LogEntry C} (hsound : Sound (members n) h)
    (hnode : NodeFollows n h keys i r) (hi : i ∈ members n) (hstate : r.state = .leader)
    (hk : 0 < k) (hget : r.log.entries[k]? = some ent)
    (hterm : ent.term = r.currentTerm)
    (hcount : r.config.peers.length / 2 < r.replicaCount k) :
    Chosen (members n) h r.currentTerm k := by
  have hlog := hnode.leaderLog_eq hsound hstate
  refine ⟨⟨hk, ent, hlog ▸ hget, hterm⟩, ?_⟩
  let counted := (r.matchIndex.entries.filter fun entry =>
    decide (k ≤ entry.2)).map Sigma.fst
  have hcounted : ∀ p ∈ counted, p ∈ members n ∧ p ≠ i ∧ k ≤ h.acked p r.currentTerm := by
    intro p hp
    obtain ⟨entry, hentry, rfl⟩ := List.mem_map.mp hp
    obtain ⟨hmem, hle⟩ := List.mem_filter.mp hentry
    have hlookup : r.matchIndex.lookup entry.1 = some entry.2 := AList.mem_lookup_iff.mpr hmem
    obtain ⟨hmember, hne, hacked⟩ := hnode.matched hstate _ _ hlookup
    exact ⟨hmember, hne, (of_decide_eq_true hle).trans hacked⟩
  have hnodup : counted.Nodup :=
    List.Nodup.sublist (List.filter_sublist.map _) r.matchIndex.nodupKeys
  have hiNew : i ∉ counted.toFinset := by
    intro hmem
    exact (hcounted i (List.mem_toFinset.mp hmem)).2.1 rfl
  refine ⟨insert i counted.toFinset, ⟨?_, ?_⟩, ?_⟩
  · refine Finset.insert_subset hi ?_
    intro p hp
    exact (hcounted p (List.mem_toFinset.mp hp)).1
  · have hcard : (insert i counted.toFinset).card = r.replicaCount k := by
      rw [Finset.card_insert_of_notMem hiNew, List.toFinset_card_of_nodup hnodup,
        List.length_map, Raft.replicaCount, List.countP_eq_length_filter,
        Nat.add_comm]
    rw [hcard]
    rw [hnode.peers] at hcount
    simp only [members, Nat.card_Icc]
    omega
  · intro p hp
    rcases Finset.mem_insert.mp hp with rfl | hp
    · have hself := hnode.selfAcked hstate
      obtain ⟨hlt, _⟩ := List.getElem?_eq_some_iff.mp hget
      omega
    · exact (hcounted p (List.mem_toFinset.mp hp)).2.2

variable (hinv : Invariant safe n c h)
include hinv

variable (hi : i ∈ members n)
include hi

theorem Invariant.advanceCommitIndex (hnode : NodeFollows n h (voteKeys c.network) i r)
    (hcommits : safe → NodeCommits n h r) :
    Invariant safe n (c.withNode i r.advanceCommitIndex.1) h ∧
      ∀ e ∈ r.advanceCommitIndex.2, EffectFollows safe n h i e := by
  unfold Raft.advanceCommitIndex
  split
  · exact ⟨hinv.bookkeeping hnode hcommits, by simp⟩
  · rename_i hleader
    have hstate : r.state = .leader := not_not.mp hleader
    refine hinv.applyCommitted { hnode with } ?_
    intro hsafe
    have hold := hcommits hsafe
    rcases advanceLoop_spec r (r.log.entries.drop (r.commitIndex + 1))
      (r.commitIndex + 1) r.commitIndex with
      hstay | ⟨m, ent, hget, heq, hterm, hcount⟩
    · rw [hstay]
      exact hold
    · rw [List.getElem?_drop] at hget
      obtain ⟨hlt, _⟩ := List.getElem?_eq_some_iff.mp hget
      rw [heq]
      constructor
      case commit_lt => exact hlt
      case applied_le =>
        have hle := hold.applied_le
        change r.lastApplied ≤ r.commitIndex + 1 + m
        omega
      case settled =>
        right
        refine ⟨r.currentTerm, r.commitIndex + 1 + m, le_rfl, ?_, ?_⟩
        · exact hnode.chosen hinv.sound hi hstate (by omega) hget hterm hcount
        · rw [upTo, hnode.leaderLog_eq hinv.sound hstate]

theorem Invariant.appendProposal (hstate : (c.nodes i).state = .leader) (cmd : C) :
    ∃ later, h.Extends later ∧ Invariant safe n
      (c.withNode i { c.nodes i with
        log := (c.nodes i).log.append
          [{ index := (c.nodes i).log.last.1 + 1
             term := (c.nodes i).currentTerm
             command := cmd }] }) later := by
  have hnode := hinv.follows.node i hi
  generalize hr : c.nodes i = r at hnode hstate
  set entry : LogEntry C :=
    { index := r.log.last.1 + 1, term := r.currentTerm, command := cmd }
    with hentry
  have hwon : h.won (h.cur i) = some i := by
    rw [hnode.cur]
    exact hnode.leader.mp hstate
  have hterm : entry.term = h.cur i := hnode.cur.symm
  have hlog := hinv.sound.won_log i hwon
  have hext := hinv.sound.extend_extends hlog entry
  obtain ⟨_, _, hpair, hindex⟩ := hnode.wellFormed.last
  have hwell : WellFormed (r.log.entries ++ [entry]) := by
    constructor
    case root =>
      exact getElem?_prefix_mono (List.prefix_append _ _) hnode.wellFormed.root
    case indexed =>
      intro k e hget
      rcases getElem?_append_singleton hget with ⟨_, hold⟩ | ⟨rfl, rfl⟩
      · exact hnode.wellFormed.indexed k e hold
      · simp only [hentry, hpair]
        exact hindex
  refine ⟨_, hext, hinv.withNode (i := i) (hinv.sound.extend hwon hterm) ?_ hext
    (extend_onlyMoves h i entry) ?_ ?_ ?_⟩
  · exact fun hsafe => (hinv.commits hsafe).complete.extend hinv.sound hwon hterm
  · intro t
    by_cases ht : t = h.cur i
    · simpa [History.extend, ht, hnode.log] using hwell
    · simpa [History.extend, ht] using hinv.follows.leaderLog t
  · have hsame : (r.log.append [entry]).entries = r.log.entries ++ [entry] := rfl
    constructor
    case nodeID => exact hnode.nodeID
    case peers => exact hnode.peers
    case cur => exact hnode.cur
    case log => simp [History.extend, hnode.log, hsame]
    case wellFormed => exact hwell
    case vote => exact hnode.vote
    case leader => exact hnode.leader
    case bid =>
      intro hcandidate
      rw [show r.state = .candidate from hcandidate] at hstate
      cases hstate
    case votes =>
      intro hcandidate
      rw [show r.state = .candidate from hcandidate] at hstate
      cases hstate
    case next =>
      intro _ p next hlookup
      obtain ⟨hne, hpos, hlen⟩ := hnode.next hstate p next hlookup
      refine ⟨hne, hpos, hlen.trans ?_⟩
      simp [hsame]
    case matched =>
      intro _ p m hlookup
      obtain ⟨hmem, hne, hacked⟩ := hnode.matched hstate p m hlookup
      exact ⟨hmem, hne, hacked.trans (hext.acked _ _)⟩
    case selfAcked =>
      intro _
      simp [History.extend, update₂_apply, hnode.cur, hnode.log, hsame]
  · intro hsafe
    have hold := (hinv.commits hsafe).node i hi
    rw [hr] at hold
    have hlt := hold.commit_lt
    constructor
    case commit_lt =>
      change r.commitIndex < (r.log.entries ++ [entry]).length
      simp only [List.length_append]
      omega
    case applied_le => exact hold.applied_le
    case settled =>
      change Settled _ _ r.currentTerm ((r.log.entries ++ [entry]).take (r.commitIndex + 1))
      rw [List.take_append_of_le_length (by omega)]
      exact hext.settled hinv.sound hold.settled le_rfl

theorem Invariant.propose (cmd : C) : ∃ later, h.Extends later ∧ Invariant safe n
      (c.perform i ((c.nodes i).handlePropose cmd)) later := by
  unfold Raft.handlePropose
  split
  · exact ⟨h, .refl h, hinv.effects (by simp)⟩
  · rename_i hleader
    obtain ⟨_, hext, happended⟩ := hinv.appendProposal hi (not_not.mp hleader) cmd
    have hnode := happended.follows.node i hi
    have hcommits := fun hsafe => (happended.commits hsafe).node i hi
    rw [Cluster.withNode_nodes_self] at hnode hcommits
    obtain ⟨hadvanced, heffects⟩ := happended.advanceCommitIndex hi hnode hcommits
    rw [Cluster.withNode_withNode] at hadvanced
    refine ⟨_, hext, Invariant.perform hadvanced ?_⟩
    intro e he
    rcases List.mem_append.mp he with hsend | happly
    · exact hnode.broadcastAppendEntries happended.sound (not_not.mp hleader) hcommits e hsend
    · exact heffects e happly

theorem Invariant.appendEntriesResponse {source : ℕ} {resp : AppendEntriesResponse}
    (hk : c.network[k]? = some (.appendEntriesResponse source i resp)) :
    ∃ later, h.Extends later ∧ Invariant safe n
      ((c.remove k).receive (.appendEntriesResponse source i resp)) later := by
  have hnodes : (c.remove k).nodes = c.nodes := rfl
  have hremoved := hinv.remove k
  have hnode := hremoved.follows.node i hi
  have hcommits := fun hsafe => (hremoved.commits hsafe).node i hi
  obtain ⟨hmember, hne, hacked⟩ := hinv.follows.packet _ (List.mem_of_getElem? hk)
  rw [hnodes] at hnode hcommits
  simp only [Cluster.receive, hnodes]
  generalize hr : c.nodes i = r at hnode hcommits
  have hstays : Invariant safe n ((c.remove k).withNode i r) h := by
    rw [← hr, Cluster.withNode, ← hnodes, Function.update_eq_self]
    exact hremoved
  unfold Raft.handleAppendEntriesResponse
  split
  · rename_i hlt
    refine ⟨h.raise i resp.term, raise_extends (hnode.cur ▸ hlt), ?_⟩
    rw [Cluster.perform_nil, ← hr, ← hnodes]
    exact hremoved.becomeFollower hi (by rw [hnodes, hr]; exact hlt)
  split
  · refine ⟨h, .refl h, ?_⟩
    rw [Cluster.perform_nil]
    exact hstays
  rename_i hnotNewer hcurrent
  have hstate : r.state = .leader := by
    by_contra hnot
    exact hcurrent (.inr hnot)
  have hterm : resp.term = r.currentTerm := by omega
  refine ⟨h, .refl h, ?_⟩
  split
  · rename_i hsuccess
    have hlast := hacked hsuccess
    rw [hterm] at hlast
    have hbound : resp.lastIndex + 1 ≤ r.log.entries.length := by
      have hlt := hinv.sound.acked_lt source r.currentTerm
      rw [hnode.leaderLog_eq hinv.sound hstate] at hlt
      omega
    dsimp only
    split
    · have hupdated : NodeFollows n h (voteKeys (c.remove k).network) i
          { r with
            matchIndex := r.matchIndex.insert source resp.lastIndex
            nextIndex := r.nextIndex.insert source (resp.lastIndex + 1) } := by
        refine { hnode with next := ?_, matched := ?_, bid := hnode.bid }
        · intro _ p next hlookup
          by_cases hp : p = source
          · subst p
            rw [AList.lookup_insert, Option.some.injEq] at hlookup
            subst next
            exact ⟨hne, Nat.succ_pos _, hbound⟩
          · rw [AList.lookup_insert_ne hp] at hlookup
            exact hnode.next hstate p next hlookup
        · intro _ p m hlookup
          by_cases hp : p = source
          · subst p
            rw [AList.lookup_insert, Option.some.injEq] at hlookup
            subst m
            exact ⟨hmember, hne, hlast⟩
          · rw [AList.lookup_insert_ne hp] at hlookup
            exact hnode.matched hstate p m hlookup
      obtain ⟨hadvanced, heffects⟩ := hremoved.advanceCommitIndex hi hupdated
        fun hsafe => { hcommits hsafe with }
      exact Invariant.perform hadvanced heffects
    · obtain ⟨hadvanced, heffects⟩ := hremoved.advanceCommitIndex hi hnode hcommits
      exact Invariant.perform hadvanced heffects
  · dsimp only
    split
    · rename_i hnext
      have hupdated : NodeFollows n h (voteKeys (c.remove k).network) i
          { r with
            nextIndex := r.nextIndex.insert source ((r.nextIndex.lookup source).getD 0 - 1) } := by
        refine { hnode with next := ?_, bid := hnode.bid }
        intro _ p next hlookup
        by_cases hp : p = source
        · subst p
          rw [AList.lookup_insert, Option.some.injEq] at hlookup
          subst next
          cases hold : r.nextIndex.lookup source with
          | none =>
            rw [hold] at hnext
            simp at hnext
          | some old =>
            rw [hold] at hnext
            have hbounds := hnode.next hstate source old hold
            simp only [Option.getD_some] at hnext ⊢
            exact ⟨hne, by omega, by omega⟩
        · rw [AList.lookup_insert_ne hp] at hlookup
          exact hnode.next hstate p next hlookup
      refine Invariant.perform
        (hremoved.bookkeeping hupdated fun hsafe => { hcommits hsafe with }) ?_
      exact hupdated.sendAppendEntriesTo hinv.sound hstate
        (fun hsafe => { hcommits hsafe with }) source
    · exact Invariant.perform hstays (hnode.sendAppendEntriesTo hinv.sound hstate hcommits source)

end MCache.Consensus

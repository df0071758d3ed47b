import MCache.RaftInvariant

/-!
# Election steps

Stepping down, running for a term, granting a vote and counting a granted
vote each move one node and are matched by one operation on the history.
-/

namespace MCache.Consensus

open History

variable {C : Type}
variable {r : Raft C} {t k source : ℕ} {keys : List (ℕ × ℕ × ℕ)}
    {req : RequestVoteRequest}

theorem Raft.becomeFollower_of_lt (ht : r.currentTerm < t) : r.becomeFollower t =
      { r with
        currentTerm := t
        votedFor := 0
        state := .follower
        leaderID := 0 } := by
  simp [Raft.becomeFollower, ht]

theorem filterMap_broadcastRequestVote (r : Raft C) (i : ℕ) :
    r.broadcastRequestVote.filterMap (Effect.packet? i) = r.config.others.map fun pid =>
        .requestVote i pid
          { term := r.currentTerm
            candidateID := r.config.nodeID
            lastLogIndex := r.log.last.1
            lastLogTerm := r.log.last.2 } := by
  rw [Raft.broadcastRequestVote, List.filterMap_map]
  rw [← List.filterMap_eq_map]
  rfl

theorem broadcastRequestVote_quiet (r : Raft C) (i : ℕ) :
    r.broadcastRequestVote.filterMap (Effect.election? i) = [] ∧
      r.broadcastRequestVote.filterMap (Effect.applied? i) = [] := by
  simp [Raft.broadcastRequestVote, Effect.election?, Effect.applied?]

variable [Inhabited C] {safe : Prop} {n i : ℕ}
variable {c : Cluster C} {h : RaftHistory C}

theorem Invariant.withNode (hinv : Invariant safe n c h) {later : RaftHistory C}
    (hsound : Sound (members n) later) (hcomplete : safe → Complete (members n) later)
    (hext : h.Extends later) (hmoves : OnlyMoves i h later)
    (hlogs : ∀ t, WellFormed (later.leaderLog t))
    (hnode : NodeFollows n later (voteKeys c.network) i r)
    (hcommits : safe → NodeCommits n later r) :
    Invariant safe n (c.withNode i r) later :=
  hinv.move (i := i)
    { sound := hsound
      complete := hcomplete
      ext := hext
      moves := hmoves
      nodes := fun j hj => by simp [Cluster.withNode, hj]
      node := by
        rw [Cluster.withNode_nodes_self]
        exact hnode
      commits := by
        rw [Cluster.withNode_nodes_self]
        exact hcommits
      packet := fun p hp => .inl hp
      keys := hinv.follows.keys
      otherKeys := fun j x t _ hmem => hmem
      leaderLog := hlogs
      elections := fun j t hmem => .inl hmem
      message := fun _ j msg hmem => .inl hmem }

/-! ## Stepping down -/

theorem NodeFollows.raised {leaderID : ℕ} (hsound : Sound (members n) h)
    (hnode : NodeFollows n h keys i r) (ht : r.currentTerm < t) :
    NodeFollows n (h.raise i t) keys i
      { r with
        currentTerm := t
        votedFor := 0
        state := .follower
        leaderID := leaderID } := by
  have hlater : h.cur i < t := by
    rw [hnode.cur]
    exact ht
  constructor
  case nodeID => exact hnode.nodeID
  case peers => exact hnode.peers
  case cur => simp [History.raise]
  case log => exact hnode.log
  case wellFormed => exact hnode.wellFormed
  case vote =>
    cases hvote : h.vote i t with
    | none => simpa [History.raise] using hvote
    | some candidate =>
      have hcur := hsound.vote_cur i t candidate hvote
      omega
  case leader =>
    constructor
    · intro hstate
      cases hstate
    · intro hwon
      have hcur : t ≤ h.cur i := (hsound.won_pos hwon).2
      omega
  all_goals
    intro hstate
    cases hstate

theorem Invariant.stepDown (hinv : Invariant safe n c h) (hi : i ∈ members n)
    (ht : (c.nodes i).currentTerm < t) (leaderID : ℕ) :
    Invariant safe n
      (c.withNode i { c.nodes i with
        currentTerm := t
        votedFor := 0
        state := .follower
        leaderID := leaderID }) (h.raise i t) := by
  have hnode := hinv.follows.node i hi
  have hlater : h.cur i < t := by
    rw [hnode.cur]
    exact ht
  refine hinv.withNode (i := i) (hinv.sound.raise hlater) ?_
    (raise_extends hlater) (raise_onlyMoves h i t) hinv.follows.leaderLog
    (hnode.raised hinv.sound ht) ?_
  · exact fun hsafe => (hinv.commits hsafe).complete.raise hlater
  · intro hsafe
    exact ((hinv.commits hsafe).node i hi).later (raise_extends hlater) hinv.sound
      rfl rfl rfl ht.le

theorem Invariant.becomeFollower (hinv : Invariant safe n c h) (hi : i ∈ members n)
    (ht : (c.nodes i).currentTerm < t) :
    Invariant safe n (c.withNode i ((c.nodes i).becomeFollower t)) (h.raise i t) := by
  rw [Raft.becomeFollower_of_lt ht]
  exact hinv.stepDown hi ht 0

/-! ## Running for a term -/

theorem NodeFollows.stood {before : List (ℕ × ℕ × ℕ)}
    (hnode : NodeFollows n h before i r) (hi : i ∈ members n)
    (hsound : Sound (members n) h) (hkey : (i, i, r.currentTerm + 1) ∉ keys) :
    NodeFollows n (h.stand i (r.currentTerm + 1)) keys i r.becomeCandidate := by
  have hpos : i ≠ 0 := by
    have hbounds := Finset.mem_Icc.mp hi
    omega
  have hcur := hnode.cur
  constructor
  case nodeID => exact hnode.nodeID
  case peers => exact hnode.peers
  case cur => simp [History.stand, Raft.becomeCandidate]
  case log => exact hnode.log
  case wellFormed => exact hnode.wellFormed
  case vote =>
    simp [History.stand, Raft.becomeCandidate, update₂_apply, hnode.nodeID, hpos]
  case leader =>
    constructor
    · intro hstate
      cases hstate
    · intro hwon
      have hterm := (hsound.won_pos hwon).2
      simp only [Raft.becomeCandidate] at hterm
      omega
  case bid =>
    intro _
    simp [History.stand, Raft.becomeCandidate, update₂_apply, hnode.log]
  case votes =>
    intro _
    refine ⟨by simp [Raft.becomeCandidate, hnode.peers], {i}, by simpa using hi,
      by simp [Raft.becomeCandidate], ?_⟩
    intro j hj
    obtain rfl := Finset.mem_singleton.mp hj
    exact ⟨by simp [History.stand, Raft.becomeCandidate, update₂_apply], hkey⟩
  all_goals
    intro hstate
    cases hstate

theorem Invariant.becomeCandidate (hinv : Invariant safe n c h) (hi : i ∈ members n) :
    h.Extends (h.stand i ((c.nodes i).currentTerm + 1)) ∧ Invariant safe n
        (c.perform i ((c.nodes i).becomeCandidate,
          (c.nodes i).becomeCandidate.broadcastRequestVote))
        (h.stand i ((c.nodes i).currentTerm + 1)) := by
  have hnode := hinv.follows.node i hi
  generalize hr : c.nodes i = r at hnode
  have hlater : h.cur i < r.currentTerm + 1 := by
    rw [hnode.cur]
    exact Nat.lt_succ_self _
  have hext := hinv.sound.stand_extends hlater
  obtain ⟨e, hlast, hlastPair, hindex⟩ := hnode.wellFormed.last
  have hnewKeys : voteKeys (c.perform i (r.becomeCandidate,
      r.becomeCandidate.broadcastRequestVote)).network =
      voteKeys c.network ++ r.config.others.map fun pid => (i, pid, r.currentTerm + 1) := by
    simp only [Cluster.perform, filterMap_broadcastRequestVote, voteKeys_append]
    congr 1
    rw [voteKeys, List.filterMap_map, ← List.filterMap_eq_map]
    rfl
  have hfresh : ∀ x, (i, x, r.currentTerm + 1) ∉ voteKeys c.network := by
    intro x hmem
    have hcur := (hinv.voteKey_cur hmem).1
    omega
  refine ⟨hext, hinv.move (i := i) ?_⟩
  refine
    { sound := hinv.sound.stand hlater
      complete := fun hsafe =>
        (hinv.commits hsafe).complete.stand hinv.sound hlater
      ext := hext
      moves := stand_onlyMoves h i _
      nodes := fun j hj => by simp [Cluster.perform, hj]
      node := ?_
      commits := ?_
      packet := ?_
      keys := ?_
      otherKeys := ?_
      leaderLog := hinv.follows.leaderLog
      elections := ?_
      message := ?_ }
  · rw [hnewKeys]
    simp only [Cluster.perform, Function.update_self]
    refine hnode.stood hi hinv.sound ?_
    intro hmem
    rcases List.mem_append.mp hmem with hold | hnew
    · exact hfresh _ hold
    · obtain ⟨pid, hpid, heq⟩ := List.mem_map.mp hnew
      have hself : pid = i := congrArg (fun key => key.2.1) heq
      exact (Config.mem_others_iff.mp hpid).2 (hself.trans hnode.nodeID.symm)
  · intro hsafe
    have hold := (hinv.commits hsafe).node i hi
    rw [hr] at hold
    simp only [Cluster.perform, Function.update_self]
    exact hold.later hext hinv.sound rfl rfl rfl (Nat.le_succ _)
  · intro p hp
    simp only [Cluster.perform, filterMap_broadcastRequestVote] at hp
    rcases List.mem_append.mp hp with hold | hnew
    · exact .inl hold
    · obtain ⟨pid, hpid, rfl⟩ := List.mem_map.mp hnew
      refine .inr ⟨⟨hi, ?_, hnode.nodeID, r.log.entries, e, ?_, hlast, ?_, ?_⟩, fun _ => trivial⟩
      · intro heq
        exact (Config.mem_others_iff.mp hpid).2 (heq ▸ hnode.nodeID.symm)
      · simp [History.stand, Raft.becomeCandidate, update₂_apply, hnode.log]
      · simp [Raft.becomeCandidate, hlastPair]
      · simpa [Raft.becomeCandidate, hlastPair] using hindex
  · rw [hnewKeys]
    refine hinv.follows.keys.append ?_ ?_
    · apply (Config.others_nodup _).map
      intro first second heq
      exact congrArg (fun key => key.2.1) heq
    · intro key hold hnew
      obtain ⟨pid, _, rfl⟩ := List.mem_map.mp hnew
      exact hfresh pid hold
  · intro j x t hj hmem
    rw [hnewKeys] at hmem
    rcases List.mem_append.mp hmem with hold | hnew
    · exact hold
    · obtain ⟨pid, _, heq⟩ := List.mem_map.mp hnew
      exact absurd (congrArg Prod.fst heq).symm hj
  · intro j t hmem
    simp only [Cluster.perform, (broadcastRequestVote_quiet _ i).1, List.append_nil] at hmem
    exact .inl hmem
  · intro _ j msg hmem
    simp only [Cluster.perform, (broadcastRequestVote_quiet _ i).2, List.append_nil] at hmem
    exact .inl hmem

theorem Invariant.electionTimeout (hinv : Invariant safe n c h) (hi : i ∈ members n) :
    ∃ later, h.Extends later ∧ Invariant safe n
      (c.perform i (c.nodes i).handleElectionTimeout) later := by
  unfold Raft.handleElectionTimeout
  split
  · refine ⟨h, .refl h, ?_⟩
    rw [Cluster.perform_nil, Cluster.withNode, Function.update_eq_self]
    exact hinv
  · exact ⟨_, hinv.becomeCandidate hi⟩

/-! ## Granting a vote -/

theorem Invariant.post_silent (hinv : Invariant safe n c h) {p : Packet C}
    (hp : PacketFollows n h p) (hcommit : safe → PacketCommits n h p)
    (hkey : p.voteKey = none) : Invariant safe n (c.post p) h := by
  have hkeys : voteKeys (c.post p).network = voteKeys c.network := by
    simp [Cluster.post, voteKeys, hkey]
  constructor
  case sound => exact hinv.sound
  case follows =>
    constructor
    case node =>
      rw [hkeys]
      exact hinv.follows.node
    case packet =>
      intro q hq
      rcases List.mem_append.mp hq with hold | hnew
      · exact hinv.follows.packet q hold
      · exact (List.mem_singleton.mp hnew) ▸ hp
    case keys =>
      rw [hkeys]
      exact hinv.follows.keys
    case leaderLog => exact hinv.follows.leaderLog
    case elections => exact hinv.follows.elections
  case commits =>
    intro hsafe
    have hold := hinv.commits hsafe
    refine { hold with packet := ?_ }
    intro q hq
    rcases List.mem_append.mp hq with hmem | hnew
    · exact hold.packet q hmem
    · exact (List.mem_singleton.mp hnew) ▸ hcommit hsafe

theorem upToDate_of_logOK {log : List (LogEntry C)} {e : LogEntry C}
    (hwell : WellFormed r.log.entries) (hlast : log.getLast? = some e)
    (hterm : req.lastLogTerm = e.term) (hindex : req.lastLogIndex + 1 = log.length)
    (hok : r.logOK req = true) : UpToDate LogEntry.term log r.log.entries := by
  obtain ⟨own, hown, hpair, hlen⟩ := hwell.last
  simp only [Raft.logOK, hpair, decide_eq_true_eq] at hok
  refine ⟨e, own, hlast, hown, ?_⟩
  rcases hok with hlt | ⟨heq, hle⟩
  · exact .inl (hterm ▸ hlt)
  · exact .inr ⟨hterm ▸ heq, by omega⟩

theorem Invariant.grantVote (hinv : Invariant safe n c h) (hi : i ∈ members n)
    (hk : c.network[k]? = some (.requestVote source i req))
    (hterm : (c.nodes i).currentTerm = req.term)
    (hfree : (c.nodes i).votedFor = 0 ∨ (c.nodes i).votedFor = req.candidateID)
    (hok : (c.nodes i).logOK req = true) :
    h.Extends (h.grant i source) ∧ Invariant safe n (((c.remove k).withNode i
            { c.nodes i with votedFor := req.candidateID }).post
          (.requestVoteResponse i source
            { term := req.term, voteGranted := true }))
        (h.grant i source) := by
  have hnode := hinv.follows.node i hi
  generalize hr : c.nodes i = r at hnode hterm hfree hok
  obtain ⟨hmem, hne, hid, log, e, hbid, hlast, hlastTerm, hlastIndex⟩ :=
    hinv.follows.packet _ (List.mem_of_getElem? hk)
  obtain ⟨hkeyOld, hkeyNew⟩ := voteKey_not_mem_eraseIdx hinv.follows.keys hk rfl
  have hcur : h.cur i = req.term := hnode.cur.trans hterm
  have hfreeVote : h.vote i (h.cur i) = none ∨ h.vote i (h.cur i) = some source := by
    rw [hnode.cur, hnode.vote]
    rcases hfree with hzero | hsame
    · exact .inl (if_pos hzero)
    · by_cases hzero : r.votedFor = 0
      · exact .inl (if_pos hzero)
      · exact .inr (by rw [if_neg hzero, hsame, hid])
  have hbidCur : h.bid source (h.cur i) = some log := hcur ▸ hbid
  have hext : h.Extends (h.grant i source) := grant_extends hfreeVote
  have hsourcePos : source ≠ 0 := by
    have hbounds := Finset.mem_Icc.mp hmem
    omega
  have hnewKeys : voteKeys ((c.network.eraseIdx k) ++ [Packet.requestVoteResponse i source
        { term := req.term, voteGranted := true }]) =
      voteKeys (c.network.eraseIdx k) ++ [(source, i, req.term)] := by
    rw [voteKeys_append]
    rfl
  refine ⟨hext, hinv.move (i := i) ?_⟩
  refine
    { sound := hinv.sound.grant hfreeVote hbidCur
      complete := ?_
      ext := hext
      moves := grant_onlyMoves h i source
      nodes := fun j hj => by
        simp [Cluster.post, Cluster.withNode, Cluster.remove, hj]
      node := ?_
      commits := ?_
      packet := ?_
      keys := ?_
      otherKeys := ?_
      leaderLog := hinv.follows.leaderLog
      elections := fun j t hmem => .inl hmem
      message := fun _ j msg hmem => .inl hmem }
  · intro hsafe
    refine (hinv.commits hsafe).complete.grant hinv.sound hbidCur ?_
    rw [hnode.log]
    exact upToDate_of_logOK hnode.wellFormed hlast hlastTerm hlastIndex hok
  · simp only [Cluster.post, Cluster.withNode, Cluster.remove, Function.update_self, hnewKeys]
    refine { hnode with vote := ?_, votes := ?_, bid := hnode.bid }
    · simp [History.grant, update₂_apply, hnode.cur, hid, hsourcePos]
    · intro hstate
      obtain ⟨hneeded, voters, hsub, hcard, hvotes⟩ := hnode.votes hstate
      refine ⟨hneeded, voters, hsub, hcard, ?_⟩
      intro j hj
      obtain ⟨hvote, hkey⟩ := hvotes j hj
      refine ⟨hext.vote _ _ _ hvote, ?_⟩
      intro hkeyMem
      rcases List.mem_append.mp hkeyMem with hold | hnew
      · exact hkey ((voteKeys_eraseIdx_sublist _ k).subset hold)
      · exact hne (congrArg Prod.fst (List.mem_singleton.mp hnew)).symm
  · intro hsafe
    have hold := (hinv.commits hsafe).node i hi
    rw [hr] at hold
    simp only [Cluster.post, Cluster.withNode, Cluster.remove, Function.update_self]
    exact hold.later hext hinv.sound rfl rfl rfl le_rfl
  · intro p hp
    rcases List.mem_append.mp hp with hold | hnew
    · exact .inl ((List.eraseIdx_sublist _ k).subset hold)
    · obtain rfl := List.mem_singleton.mp hnew
      refine .inr ⟨fun _ => ⟨hi, hne.symm, ?_⟩, fun _ => trivial⟩
      simp [History.grant, update₂_apply, hcur]
  · simp only [Cluster.post, Cluster.withNode, Cluster.remove, hnewKeys]
    refine (hinv.follows.keys.sublist (voteKeys_eraseIdx_sublist _ k)).append
      (List.nodup_singleton _) ?_
    intro key hold hnew
    exact hkeyNew ((List.mem_singleton.mp hnew) ▸ hold)
  · intro j x t _ hkeyMem
    simp only [Cluster.post, Cluster.withNode, Cluster.remove, hnewKeys] at hkeyMem
    rcases List.mem_append.mp hkeyMem with hold | hnew
    · exact (voteKeys_eraseIdx_sublist _ k).subset hold
    · exact (List.mem_singleton.mp hnew) ▸ hkeyOld

theorem Invariant.refuseVote (hinv : Invariant safe n c h) (k source t : ℕ) : Invariant safe n
      ((c.remove k).post (.requestVoteResponse i source { term := t, voteGranted := false }))
      h :=
  (hinv.remove k).post_silent (fun hgranted => by cases hgranted) (fun _ => trivial) rfl

theorem Invariant.requestVote (hinv : Invariant safe n c h) (hi : i ∈ members n)
    (hk : c.network[k]? = some (.requestVote source i req)) :
    ∃ later, h.Extends later ∧ Invariant safe n
      ((c.remove k).receive (.requestVote source i req)) later := by
  have hnodes : (c.remove k).nodes = c.nodes := rfl
  simp only [Cluster.receive, Cluster.perform_nil, hnodes]
  unfold Raft.handleRequestVote
  split
  · refine ⟨h, .refl h, ?_⟩
    simp only [Cluster.withNode, ← hnodes, Function.update_eq_self]
    exact hinv.refuseVote k source _
  · rename_i hnotOld
    -- The node first moves to the request's term, then decides.
    obtain ⟨later, r, hr, hterm, hext, hlater⟩ : ∃ later r,
        (if (c.nodes i).currentTerm < req.term then
          (c.nodes i).becomeFollower req.term else c.nodes i) = r ∧
        r.currentTerm = req.term ∧ h.Extends later ∧
        Invariant safe n (c.withNode i r) later := by
      by_cases hlt : (c.nodes i).currentTerm < req.term
      · refine ⟨h.raise i req.term, _, rfl, ?_,
          raise_extends ((hinv.follows.node i hi).cur ▸ hlt), ?_⟩
        · rw [if_pos hlt, Raft.becomeFollower_of_lt hlt]
        · rw [if_pos hlt]
          exact hinv.becomeFollower hi hlt
      · refine ⟨h, _, rfl, ?_, .refl h, ?_⟩
        · rw [if_neg hlt]
          omega
        · rw [if_neg hlt, Cluster.withNode, Function.update_eq_self]
          exact hinv
    simp only [hr]
    have hself : (c.withNode i r).nodes i = r := c.withNode_nodes_self i r
    split
    · rename_i hgrant
      obtain ⟨hgrantExt, hgranted⟩ := hlater.grantVote hi (k := k) hk
        (by rw [hself]; exact hterm) (by rw [hself]; exact hgrant.1)
        (by rw [hself]; exact hgrant.2)
      rw [hself] at hgranted
      simp only [Cluster.withNode, Cluster.remove, Function.update_idem] at hgranted ⊢
      rw [hterm] at hgranted ⊢
      exact ⟨_, hext.trans hgrantExt, hgranted⟩
    · exact ⟨_, hext, hlater.refuseVote k source _⟩

/-! ## Counting a vote -/

theorem lookup_foldl_insert (pids : List ℕ) (value p : ℕ) (start : IndexMap) :
    (pids.foldl (fun (m : IndexMap) pid => m.insert pid value) start).lookup p =
      if p ∈ pids then some value else start.lookup p := by
  induction pids generalizing start with
  | nil => rfl
  | cons pid rest ih =>
    rw [List.foldl_cons, ih]
    by_cases hrest : p ∈ rest
    · rw [if_pos hrest, if_pos (List.mem_cons_of_mem _ hrest)]
    · rw [if_neg hrest]
      by_cases hp : p = pid
      · subst hp
        rw [AList.lookup_insert, if_pos List.mem_cons_self]
      · rw [AList.lookup_insert_ne hp, if_neg (List.not_mem_cons_of_ne_of_not_mem hp hrest)]

theorem mem_of_lookup_foldl_insert {pids : List ℕ} {value p x : ℕ}
    (hlookup : (pids.foldl (fun (m : IndexMap) pid => m.insert pid value) ∅).lookup p =
      some x) : p ∈ pids ∧ x = value := by
  rw [lookup_foldl_insert] at hlookup
  split_ifs at hlookup with hp
  · exact ⟨hp, (Option.some.inj hlookup).symm⟩
  · cases hlookup

theorem NodeFollows.elected (hnode : NodeFollows n h keys i r) :
    NodeFollows n (h.win i) keys i r.becomeLeader.1 := by
  simp only [Raft.becomeLeader]
  constructor
  case nodeID => exact hnode.nodeID
  case peers => exact hnode.peers
  case cur => exact hnode.cur
  case log => exact hnode.log
  case wellFormed => exact hnode.wellFormed
  case vote => exact hnode.vote
  case leader => simp [History.win, hnode.cur]
  case bid =>
    intro hcandidate
    cases hcandidate
  case votes =>
    intro hcandidate
    cases hcandidate
  case next =>
    intro _ p next hlookup
    obtain ⟨hmem, rfl⟩ := mem_of_lookup_foldl_insert hlookup
    obtain ⟨_, _, hpair, hindex⟩ := hnode.wellFormed.last
    refine ⟨?_, Nat.succ_pos _, ?_⟩
    · intro heq
      exact (Config.mem_others_iff.mp hmem).2 (heq.trans hnode.nodeID.symm)
    · rw [hpair]
      exact hindex.le
  case matched =>
    intro _ p m hlookup
    obtain ⟨hmem, rfl⟩ := mem_of_lookup_foldl_insert hlookup
    have hother := Config.mem_others_iff.mp hmem
    rw [hnode.peers, hnode.nodeID] at hother
    exact ⟨hother.1, hother.2, Nat.zero_le _⟩
  case selfAcked =>
    intro _
    simp only [History.win, update₂_apply, hnode.cur, and_self, if_true, hnode.log]
    omega

theorem Invariant.becomeLeader (hinv : Invariant safe n c h) (hi : i ∈ members n)
    (hstate : (c.nodes i).state = .candidate)
    (hvotes : (c.nodes i).votesNeeded ≤ (c.nodes i).votesReceived) :
    h.Extends (h.win i) ∧ Invariant safe n (c.perform i (c.nodes i).becomeLeader) (h.win i) := by
  have hnode := hinv.follows.node i hi
  generalize hr : c.nodes i = r at hnode hstate hvotes
  obtain ⟨hneeded, voters, hsub, hcard, hvoters⟩ := hnode.votes hstate
  have hquorum : IsMajority (members n) voters := by
    refine ⟨hsub, ?_⟩
    simp only [members, Nat.card_Icc]
    omega
  have hvoted : ∀ j ∈ voters, h.vote j (h.cur i) = some i := by
    intro j hj
    rw [hnode.cur]
    exact (hvoters j hj).1
  have hbid : h.bid i (h.cur i) = some (h.log i) := by
    rw [hnode.cur, hnode.log]
    exact hnode.bid hstate
  have hunwon : h.won (h.cur i) = none := by
    cases hwon : h.won (h.cur i) with
    | none => rfl
    | some w =>
      obtain rfl := hinv.sound.winner_unique hquorum hvoted hwon
      rw [hnode.cur, ← hnode.leader, hstate] at hwon
      cases hwon
  have hext := hinv.sound.win_extends hunwon
  have hnetwork : (c.perform i r.becomeLeader).network = c.network := List.append_nil _
  refine ⟨hext, hinv.move (i := i) ?_⟩
  refine
    { sound := hinv.sound.win hbid hunwon hquorum hvoted
      complete := fun hsafe =>
        (hinv.commits hsafe).complete.win hinv.sound hbid hunwon hquorum hvoted
      ext := hext
      moves := win_onlyMoves h i
      nodes := fun j hj => by simp [Cluster.perform, hj]
      node := ?_
      commits := ?_
      packet := fun p hp => ?_
      keys := ?_
      otherKeys := ?_
      leaderLog := ?_
      elections := ?_
      message := ?_ }
  · rw [hnetwork]
    simp only [Cluster.perform, Function.update_self]
    exact hnode.elected
  · intro hsafe
    have hold := (hinv.commits hsafe).node i hi
    rw [hr] at hold
    simp only [Cluster.perform, Raft.becomeLeader, Function.update_self]
    exact hold.later hext hinv.sound rfl rfl rfl le_rfl
  · exact .inl (hnetwork ▸ hp)
  · rw [hnetwork]
    exact hinv.follows.keys
  · intro j x t _ hmem
    rwa [hnetwork] at hmem
  · intro t
    by_cases ht : t = h.cur i
    · simpa [History.win, ht, hnode.log] using hnode.wellFormed
    · simpa [History.win, ht] using hinv.follows.leaderLog t
  · intro j t hmem
    simp only [Cluster.perform, Raft.becomeLeader, List.filterMap_cons,
      Effect.election?, List.filterMap_nil, List.mem_append,
      List.mem_singleton, Prod.mk.injEq] at hmem
    rcases hmem with hold | ⟨rfl, rfl⟩
    · exact .inl hold
    · right
      simp [History.win, hnode.cur]
  · intro _ j msg hmem
    left
    simpa [Cluster.perform, Raft.becomeLeader, Effect.applied?] using hmem

theorem Invariant.countVote (hinv : Invariant safe n c h) (hi : i ∈ members n)
    {resp : RequestVoteResponse}
    (hk : c.network[k]? = some (.requestVoteResponse source i resp))
    (hterm : resp.term = (c.nodes i).currentTerm) (hgranted : resp.voteGranted = true)
    (hstate : (c.nodes i).state = .candidate) :
    Invariant safe n ((c.remove k).withNode i
        { c.nodes i with votesReceived := (c.nodes i).votesReceived + 1 })
      h := by
  have hnode := hinv.follows.node i hi
  generalize hr : c.nodes i = r at hnode hterm hstate
  obtain ⟨hmem, _, hvote⟩ := hinv.follows.packet _ (List.mem_of_getElem? hk) hgranted
  have hkey : (Packet.requestVoteResponse source i resp : Packet C).voteKey =
      some (i, source, resp.term) := by simp [Packet.voteKey, hgranted]
  obtain ⟨hkeyOld, hkeyNew⟩ := voteKey_not_mem_eraseIdx hinv.follows.keys hk hkey
  obtain ⟨hneeded, voters, hsub, hcard, hvoters⟩ := hnode.votes hstate
  have hsourceNew : source ∉ voters := by
    intro hsource
    exact (hvoters source hsource).2 (hterm ▸ hkeyOld)
  have hremoved := hinv.remove k
  refine hremoved.withNode (i := i) hinv.sound
    (fun hsafe => (hinv.commits hsafe).complete) (Extends.refl h)
    (OnlyMoves.refl i h) hinv.follows.leaderLog ?_ ?_
  · have hnodeRemoved := hremoved.follows.node i hi
    rw [show (c.remove k).nodes i = r from hr] at hnodeRemoved
    refine { hnodeRemoved with votes := ?_, bid := hnodeRemoved.bid }
    intro _
    refine ⟨hneeded, insert source voters, ?_, ?_, ?_⟩
    · exact Finset.insert_subset hmem hsub
    · rw [Finset.card_insert_of_notMem hsourceNew, hcard]
    · intro j hj
      rcases Finset.mem_insert.mp hj with rfl | hold
      · exact ⟨hterm ▸ hvote, hterm ▸ hkeyNew⟩
      · obtain ⟨hvoteOld, hkey⟩ := hvoters j hold
        exact ⟨hvoteOld, fun hin => hkey ((voteKeys_eraseIdx_sublist _ k).subset hin)⟩
  · intro hsafe
    have hold := (hinv.commits hsafe).node i hi
    rw [hr] at hold
    exact ⟨hold.commit_lt, hold.applied_le, hold.settled⟩

theorem Invariant.requestVoteResponse (hinv : Invariant safe n c h) (hi : i ∈ members n)
    {resp : RequestVoteResponse}
    (hk : c.network[k]? = some (.requestVoteResponse source i resp)) :
    ∃ later, h.Extends later ∧ Invariant safe n
      ((c.remove k).receive (.requestVoteResponse source i resp)) later := by
  have hnodes : (c.remove k).nodes = c.nodes := rfl
  have hremoved := hinv.remove k
  have hstays : (c.remove k).withNode i (c.nodes i) = c.remove k := by
    rw [Cluster.withNode, hnodes, Function.update_eq_self]
    rfl
  simp only [Cluster.receive, hnodes]
  unfold Raft.handleRequestVoteResponse
  split
  · rename_i hlt
    rw [Cluster.perform_nil]
    exact ⟨_, raise_extends ((hinv.follows.node i hi).cur ▸ hlt), hremoved.becomeFollower hi hlt⟩
  split
  · rw [Cluster.perform_nil, hstays]
    exact ⟨h, .refl h, hremoved⟩
  rename_i hnotNewer hcandidate
  split
  · rename_i hgranted
    have hcounted := hinv.countVote hi hk (by omega) hgranted (by
        by_contra hne
        exact hcandidate (.inr hne))
    dsimp only
    split
    · rename_i henough
      have hself := (c.remove k).withNode_nodes_self i
        { c.nodes i with votesReceived := (c.nodes i).votesReceived + 1 }
      obtain ⟨hext, hleader⟩ := hcounted.becomeLeader hi (by
          rw [hself]
          by_contra hne
          exact hcandidate (.inr hne))
        (by
          rw [hself]
          exact henough)
      rw [hself, Cluster.withNode_perform] at hleader
      exact ⟨_, hext, hleader⟩
    · rw [Cluster.perform_nil]
      exact ⟨h, .refl h, hcounted⟩
  · rw [Cluster.perform_nil, hstays]
    exact ⟨h, .refl h, hremoved⟩

end MCache.Consensus

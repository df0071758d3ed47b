import MCache.LeaderCompleteness
import MCache.RaftCluster

/-!
# How a Raft cluster follows a leader history

`Follows` relates a cluster to a history: every node's term, vote and log are
those of the history, and every packet in flight reports something the
history records.  Votes are counted by a bare number in the code; the set of
voters behind the number exists because a vote request and its response never
travel twice, which is the condition on the keys of the vote packets.

`Invariant` adds the soundness of the history and, for runs in which no log
is merely shortened, its completeness and what it says about commit indices.
-/

namespace MCache.Consensus

open History

variable {C : Type}
variable {log : List (LogEntry C)} {n : ℕ} {p : Packet C} {r : Raft C} {safe : Prop}
    {c : Cluster C}

abbrev RaftHistory (C : Type) := History (LogEntry.term : LogEntry C → ℕ) ℕ

def Packet.voteKey : Packet C → Option (ℕ × ℕ × ℕ)
  | .requestVote source target req => some (source, target, req.term)
  | .requestVoteResponse source target resp =>
    if resp.voteGranted then some (target, source, resp.term) else none
  | _ => none

def voteKeys (network : List (Packet C)) : List (ℕ × ℕ × ℕ) := network.filterMap Packet.voteKey

structure WellFormed [Inhabited C] (log : List (LogEntry C)) : Prop where
  root : log[0]? = some dummyEntry
  indexed : ∀ (k : ℕ) (e : LogEntry C), log[k]? = some e → e.index = k

structure NodeFollows [Inhabited C] (n : ℕ) (h : RaftHistory C)
    (keys : List (ℕ × ℕ × ℕ)) (i : ℕ) (r : Raft C) : Prop where
  nodeID : r.config.nodeID = i
  peers : r.config.peers.length = n
  cur : h.cur i = r.currentTerm
  log : h.log i = r.log.entries
  wellFormed : WellFormed r.log.entries
  vote : h.vote i r.currentTerm =
    if r.votedFor = 0 then none else some r.votedFor
  leader : r.state = .leader ↔ h.won r.currentTerm = some i
  bid : r.state = .candidate → h.bid i r.currentTerm = some r.log.entries
  votes : r.state = .candidate → r.votesNeeded = n / 2 + 1 ∧
    ∃ voters : Finset ℕ, voters ⊆ members n ∧ voters.card = r.votesReceived ∧
      ∀ j ∈ voters, h.vote j r.currentTerm = some i ∧ (i, j, r.currentTerm) ∉ keys
  next : r.state = .leader → ∀ p next, r.nextIndex.lookup p = some next →
    p ≠ i ∧ 0 < next ∧ next ≤ r.log.entries.length
  matched : r.state = .leader → ∀ p m, r.matchIndex.lookup p = some m →
    p ∈ members n ∧ p ≠ i ∧ m ≤ h.acked p r.currentTerm
  selfAcked : r.state = .leader → r.log.entries.length ≤ h.acked i r.currentTerm + 1

def PacketFollows (n : ℕ) (h : RaftHistory C) : Packet C → Prop
  | .appendEntries source target req =>
    source ≠ target ∧ h.won req.term = some source ∧
      (∃ e, (h.leaderLog req.term)[req.prevLogIndex]? = some e ∧ e.term = req.prevLogTerm) ∧
      req.entries <+: (h.leaderLog req.term).drop (req.prevLogIndex + 1)
  | .appendEntriesResponse source target resp =>
    source ∈ members n ∧ source ≠ target ∧
      (resp.success → resp.lastIndex ≤ h.acked source resp.term)
  | .requestVote source target req =>
    source ∈ members n ∧ source ≠ target ∧ req.candidateID = source ∧
      ∃ log e, h.bid source req.term = some log ∧ log.getLast? = some e ∧
        req.lastLogTerm = e.term ∧ req.lastLogIndex + 1 = log.length
  | .requestVoteResponse source target resp =>
    resp.voteGranted → source ∈ members n ∧ source ≠ target ∧ h.vote source resp.term = some target

structure Follows [Inhabited C] (n : ℕ) (c : Cluster C) (h : RaftHistory C) : Prop where
  node : ∀ i ∈ members n, NodeFollows n h (voteKeys c.network) i (c.nodes i)
  packet : ∀ p ∈ c.network, PacketFollows n h p
  keys : (voteKeys c.network).Nodup
  leaderLog : ∀ t, WellFormed (h.leaderLog t)
  elections : ∀ i t, (i, t) ∈ c.elections → h.won t = some i

structure NodeCommits (n : ℕ) (h : RaftHistory C) (r : Raft C) : Prop where
  commit_lt : r.commitIndex < r.log.entries.length
  applied_le : r.lastApplied ≤ r.commitIndex
  settled : Settled (members n) h r.currentTerm (r.log.entries.take (r.commitIndex + 1))

def PacketCommits (n : ℕ) (h : RaftHistory C) : Packet C → Prop
  | .appendEntries _ _ req =>
    req.leaderCommit < (h.leaderLog req.term).length ∧ Settled (members n) h req.term
        ((h.leaderLog req.term).take (req.leaderCommit + 1)) ∧
      (req.entries = [] → req.leaderCommit ≤ req.prevLogIndex)
  | _ => True

def MessageSettled (n : ℕ) (h : RaftHistory C) (msg : ApplyMsg C) : Prop :=
  0 < msg.index ∧ ∃ limit log e, Settled (members n) h limit log ∧
    log[msg.index]? = some e ∧ e.command = msg.command

structure Commits (n : ℕ) (c : Cluster C) (h : RaftHistory C) : Prop where
  complete : Complete (members n) h
  node : ∀ i ∈ members n, NodeCommits n h (c.nodes i)
  packet : ∀ p ∈ c.network, PacketCommits n h p
  message : ∀ i msg, (i, msg) ∈ c.applied → MessageSettled n h msg

structure Invariant [Inhabited C] (safe : Prop) (n : ℕ) (c : Cluster C)
    (h : RaftHistory C) : Prop where
  sound : Sound (members n) h
  follows : Follows n c h
  commits : safe → Commits n c h

theorem WellFormed.shorten [Inhabited C] {part : List (LogEntry C)}
    (hlog : WellFormed log) (hpart : part <+: log) (hne : part ≠ []) :
    WellFormed part where
  root := by
    obtain ⟨rest, rfl⟩ := hpart
    have hroot := hlog.root
    rwa [List.getElem?_append_left (List.length_pos_iff.mpr hne)] at hroot
  indexed := fun k e hget => hlog.indexed k e (getElem?_prefix_mono hpart hget)

theorem WellFormed.ne_nil [Inhabited C] (hlog : WellFormed log) : log ≠ [] := by
  intro hnil
  have hroot := hlog.root
  rw [hnil] at hroot
  cases hroot

theorem WellFormed.take_one [Inhabited C] (hlog : WellFormed log) : log.take 1 = [dummyEntry] := by
  rw [List.take_one, List.head?_eq_getElem?, hlog.root]
  rfl

theorem WellFormed.last [Inhabited C] {log : Log C} (hlog : WellFormed log.entries) :
    ∃ e, log.entries.getLast? = some e ∧ log.last = (e.index, e.term) ∧
      e.index + 1 = log.entries.length := by
  obtain ⟨e, he⟩ : ∃ e, log.entries.getLast? = some e := by
    cases hlast : log.entries.getLast? with
    | none => exact absurd (List.getLast?_eq_none_iff.mp hlast) hlog.ne_nil
    | some e => exact ⟨e, rfl⟩
  refine ⟨e, he, by simp [Log.last, he], ?_⟩
  rw [List.getLast?_eq_getElem?] at he
  have hindex := hlog.indexed _ e he
  obtain ⟨hlt, _⟩ := List.getElem?_eq_some_iff.mp he
  omega

theorem PacketFollows.mono {h later : RaftHistory C} (hext : h.Extends later)
    (hp : PacketFollows n h p) : PacketFollows n later p := by
  cases p with
  | appendEntries source target req =>
    obtain ⟨hne, hwon, ⟨e, hget, hterm⟩, hentries⟩ := hp
    have hgrow := hext.leaderLog _ _ hwon
    exact ⟨hne, hext.won _ _ hwon, ⟨e, getElem?_prefix_mono hgrow hget, hterm⟩,
      hentries.trans (hgrow.drop _)⟩
  | appendEntriesResponse source target resp =>
    exact ⟨hp.1, hp.2.1, fun hs => (hp.2.2 hs).trans (hext.acked _ _)⟩
  | requestVote source target req =>
    obtain ⟨hmem, hne, hid, log, e, hbid, hlast⟩ := hp
    exact ⟨hmem, hne, hid, log, e, hext.bid _ _ _ hbid, hlast⟩
  | requestVoteResponse source target resp =>
    intro hgranted
    obtain ⟨hmem, hne, hvote⟩ := hp hgranted
    exact ⟨hmem, hne, hext.vote _ _ _ hvote⟩

theorem PacketCommits.mono {h later : RaftHistory C} (hext : h.Extends later)
    (hsound : Sound (members n) h) (hp : PacketFollows n h p)
    (hcommit : PacketCommits n h p) : PacketCommits n later p := by
  cases p with
  | appendEntries source target req =>
    obtain ⟨hlt, hsettled, hempty⟩ := hcommit
    obtain ⟨rest, hrest⟩ := hext.leaderLog _ _ hp.2.1
    refine ⟨?_, ?_, hempty⟩
    · rw [← hrest, List.length_append]
      omega
    · rw [← hrest, List.take_append_of_le_length (by omega)]
      exact hext.settled hsound hsettled le_rfl
  | _ => trivial

theorem MessageSettled.mono {h later : RaftHistory C} (hext : h.Extends later)
    (hsound : Sound (members n) h) {msg : ApplyMsg C} (hmsg : MessageSettled n h msg) :
    MessageSettled n later msg := by
  obtain ⟨hpos, limit, log, e, hsettled, hget⟩ := hmsg
  exact ⟨hpos, limit, log, e, hext.settled hsound hsettled le_rfl, hget⟩

theorem NodeFollows.frame [Inhabited C] {i j : ℕ} {h later : RaftHistory C}
    {keys keys' : List (ℕ × ℕ × ℕ)} (hnode : NodeFollows n h keys j r)
    (hext : h.Extends later) (hmoves : OnlyMoves i h later) (hj : j ≠ i)
    (hkeys : ∀ x t, (j, x, t) ∈ keys' → (j, x, t) ∈ keys) :
    NodeFollows n later keys' j r where
  nodeID := hnode.nodeID
  peers := hnode.peers
  cur := (hmoves.cur j hj).trans hnode.cur
  log := (hmoves.log j hj).trans hnode.log
  wellFormed := hnode.wellFormed
  vote := by
    rw [hmoves.vote j hj]
    exact hnode.vote
  leader := by
    rw [hnode.leader]
    exact ⟨hext.won _ _, hmoves.won j hj _⟩
  bid := fun hstate => hext.bid _ _ _ (hnode.bid hstate)
  votes := by
    intro hstate
    obtain ⟨hneeded, voters, hsub, hcard, hvotes⟩ := hnode.votes hstate
    refine ⟨hneeded, voters, hsub, hcard, ?_⟩
    intro x hx
    obtain ⟨hvote, hkey⟩ := hvotes x hx
    exact ⟨hext.vote _ _ _ hvote, fun hmem => hkey (hkeys x _ hmem)⟩
  next := hnode.next
  matched := by
    intro hstate p m hlookup
    obtain ⟨hmem, hne, hacked⟩ := hnode.matched hstate p m hlookup
    exact ⟨hmem, hne, hacked.trans (hext.acked _ _)⟩
  selfAcked := by
    intro hstate
    have hold := hnode.selfAcked hstate
    have hacked := hext.acked j r.currentTerm
    omega

theorem NodeCommits.later {h later : RaftHistory C} {next : Raft C}
    (hcommits : NodeCommits n h r) (hext : h.Extends later)
    (hsound : Sound (members n) h) (hcommit : next.commitIndex = r.commitIndex)
    (happlied : next.lastApplied = r.lastApplied) (hlog : next.log = r.log)
    (hterm : r.currentTerm ≤ next.currentTerm) : NodeCommits n later next where
  commit_lt := by
    rw [hcommit, hlog]
    exact hcommits.commit_lt
  applied_le := by
    rw [hcommit, happlied]
    exact hcommits.applied_le
  settled := by
    rw [hcommit, hlog]
    exact hext.settled hsound hcommits.settled hterm

theorem NodeCommits.mono {h later : RaftHistory C} (hcommits : NodeCommits n h r)
    (hext : h.Extends later) (hsound : Sound (members n) h) : NodeCommits n later r :=
  hcommits.later hext hsound rfl rfl rfl le_rfl

structure Move [Inhabited C] (safe : Prop) (n i : ℕ) (c next : Cluster C)
    (h later : RaftHistory C) : Prop where
  sound : Sound (members n) later
  complete : safe → Complete (members n) later
  ext : h.Extends later
  moves : OnlyMoves i h later
  nodes : ∀ j, j ≠ i → next.nodes j = c.nodes j
  node : NodeFollows n later (voteKeys next.network) i (next.nodes i)
  commits : safe → NodeCommits n later (next.nodes i)
  packet : ∀ p ∈ next.network, p ∈ c.network ∨
    PacketFollows n later p ∧ (safe → PacketCommits n later p)
  keys : (voteKeys next.network).Nodup
  otherKeys : ∀ j x t, j ≠ i → (j, x, t) ∈ voteKeys next.network → (j, x, t) ∈ voteKeys c.network
  leaderLog : ∀ t, WellFormed (later.leaderLog t)
  elections : ∀ j t, (j, t) ∈ next.elections → (j, t) ∈ c.elections ∨ later.won t = some j
  message : safe → ∀ j msg, (j, msg) ∈ next.applied →
    (j, msg) ∈ c.applied ∨ MessageSettled n later msg

theorem Invariant.move [Inhabited C] {i : ℕ} {next : Cluster C}
    {h later : RaftHistory C} (hinv : Invariant safe n c h)
    (hmove : Move safe n i c next h later) : Invariant safe n next later where
  sound := hmove.sound
  follows :=
    { node := by
        intro j hj
        by_cases hji : j = i
        · subst j
          exact hmove.node
        · rw [hmove.nodes j hji]
          exact (hinv.follows.node j hj).frame hmove.ext hmove.moves hji
            fun x t => hmove.otherKeys j x t hji
      packet := by
        intro p hp
        rcases hmove.packet p hp with hold | hnew
        · exact (hinv.follows.packet p hold).mono hmove.ext
        · exact hnew.1
      keys := hmove.keys
      leaderLog := hmove.leaderLog
      elections := by
        intro j t hmem
        rcases hmove.elections j t hmem with hold | hnew
        · exact hmove.ext.won _ _ (hinv.follows.elections j t hold)
        · exact hnew }
  commits := by
    intro hsafe
    have hold := hinv.commits hsafe
    constructor
    case complete => exact hmove.complete hsafe
    case node =>
      intro j hj
      by_cases hji : j = i
      · subst j
        exact hmove.commits hsafe
      · rw [hmove.nodes j hji]
        exact (hold.node j hj).mono hmove.ext hinv.sound
    case packet =>
      intro p hp
      rcases hmove.packet p hp with hmem | hnew
      · exact (hold.packet p hmem).mono hmove.ext hinv.sound (hinv.follows.packet p hmem)
      · exact hnew.2 hsafe
    case message =>
      intro j msg hmem
      rcases hmove.message hsafe j msg hmem with hmem | hnew
      · exact (hold.message j msg hmem).mono hmove.ext hinv.sound
      · exact hnew

def Cluster.withNode (c : Cluster C) (i : ℕ) (r : Raft C) : Cluster C :=
  { c with nodes := Function.update c.nodes i r }

theorem Cluster.perform_nil (c : Cluster C) (i : ℕ) (r : Raft C) :
    c.perform i (r, []) = c.withNode i r := by
  simp [Cluster.perform, Cluster.withNode]

theorem Cluster.withNode_perform (c : Cluster C) (i : ℕ) (r : Raft C)
    (result : Raft C × List (Effect C)) :
    (c.withNode i r).perform i result = c.perform i result := by
  simp [Cluster.perform, Cluster.withNode]

@[simp] theorem Cluster.withNode_nodes_self (c : Cluster C) (i : ℕ)
    (r : Raft C) : (c.withNode i r).nodes i = r := by
  simp [Cluster.withNode]

@[simp] theorem Cluster.withNode_withNode (c : Cluster C) (i : ℕ) (first second : Raft C) :
    (c.withNode i first).withNode i second = c.withNode i second := by
  simp [Cluster.withNode]

theorem voteKeys_append (first second : List (Packet C)) :
    voteKeys (first ++ second) = voteKeys first ++ voteKeys second := by
  simp [voteKeys]

theorem voteKeys_eraseIdx_sublist (network : List (Packet C)) (k : ℕ) :
    (voteKeys (network.eraseIdx k)).Sublist (voteKeys network) :=
  (List.eraseIdx_sublist network k).filterMap _

theorem voteKey_not_mem_eraseIdx {network : List (Packet C)} {k : ℕ} {key : ℕ × ℕ × ℕ}
    (hnodup : (voteKeys network).Nodup) (hget : network[k]? = some p)
    (hkey : p.voteKey = some key) :
    key ∈ voteKeys network ∧ key ∉ voteKeys (network.eraseIdx k) := by
  have hmem : key ∈ voteKeys network := List.mem_filterMap.mpr ⟨p, List.mem_of_getElem? hget, hkey⟩
  refine ⟨hmem, ?_⟩
  obtain ⟨hk, hval⟩ := List.getElem?_eq_some_iff.mp hget
  have hsplit : network = network.take k ++ p :: network.drop (k + 1) := by
    rw [← hval, ← List.drop_eq_getElem_cons hk, List.take_append_drop]
  rw [hsplit, voteKeys_append] at hnodup
  simp only [voteKeys, List.filterMap_cons, hkey] at hnodup
  rw [List.nodup_middle, List.nodup_cons] at hnodup
  rw [List.eraseIdx_eq_take_drop_succ, voteKeys_append]
  exact hnodup.1

theorem Invariant.remove [Inhabited C] {h : RaftHistory C} (hinv : Invariant safe n c h)
    (k : ℕ) : Invariant safe n (c.remove k) h where
  sound := hinv.sound
  follows :=
    { node := by
        intro j hj
        exact (hinv.follows.node j hj).frame (Extends.refl h)
          (OnlyMoves.refl (j + 1) h) (Nat.lt_succ_self j).ne
          fun x t hmem => (voteKeys_eraseIdx_sublist _ k).subset hmem
      packet := fun p hp =>
        hinv.follows.packet p ((List.eraseIdx_sublist _ k).subset hp)
      keys := hinv.follows.keys.sublist (voteKeys_eraseIdx_sublist _ k)
      leaderLog := hinv.follows.leaderLog
      elections := hinv.follows.elections }
  commits := by
    intro hsafe
    have hold := hinv.commits hsafe
    exact
      { complete := hold.complete
        node := hold.node
        packet := fun p hp =>
          hold.packet p ((List.eraseIdx_sublist _ k).subset hp)
        message := hold.message }

theorem Invariant.voteKey_cur [Inhabited C] {h : RaftHistory C}
    (hinv : Invariant safe n c h) {j x t : ℕ} (hmem : (j, x, t) ∈ voteKeys c.network) :
    t ≤ h.cur j ∧ x ≠ j := by
  obtain ⟨p, hp, hkey⟩ := List.mem_filterMap.mp hmem
  have hfollows := hinv.follows.packet p hp
  cases p with
  | appendEntries source target req => cases hkey
  | appendEntriesResponse source target resp => cases hkey
  | requestVote source target req =>
    simp only [Packet.voteKey, Option.some.injEq, Prod.mk.injEq] at hkey
    obtain ⟨rfl, rfl, rfl⟩ := hkey
    obtain ⟨_, hne, _, log, e, hbid, _⟩ := hfollows
    exact ⟨(hinv.sound.bid_cur _ _ log hbid).2, hne.symm⟩
  | requestVoteResponse source target resp =>
    simp only [Packet.voteKey] at hkey
    split at hkey
    · rename_i hgranted
      simp only [Option.some.injEq, Prod.mk.injEq] at hkey
      obtain ⟨rfl, rfl, rfl⟩ := hkey
      obtain ⟨_, hne, hvote⟩ := hfollows hgranted
      obtain ⟨log, hbid⟩ := hinv.sound.vote_bid _ _ _ hvote
      exact ⟨(hinv.sound.bid_cur _ _ log hbid).2, hne⟩
    · cases hkey

theorem Config.others_nodup (config : Config) : config.others.Nodup := by
  apply List.Nodup.filter
  exact List.nodup_range.map fun _ _ heq => Nat.succ.inj heq

end MCache.Consensus

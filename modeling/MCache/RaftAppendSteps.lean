import MCache.RaftReplicationSteps

/-!
# Append requests

The follower's side of replication.  An accepted append request turns the
follower's log into the leader's log up to the last entry of the request,
whatever the follower held after it; this is where a log can be cut.
`StaleAppend` names the requests that do nothing but cut.
-/

namespace MCache.Consensus

open History

variable {C : Type}
variable {r : Raft C} {req : AppendEntriesRequest C} {lead : List (LogEntry C)}
    {keys : List (ℕ × ℕ × ℕ)} {source : ℕ}

def Raft.StaleAppend (r : Raft C) (req : AppendEntriesRequest C) : Prop := req.entries ≠ [] ∧
    req.entries <+: r.log.entries.drop (req.prevLogIndex + 1) ∧
    req.prevLogIndex + 1 + req.entries.length < r.log.entries.length

instance [DecidableEq C] (r : Raft C) (req : AppendEntriesRequest C) :
    Decidable (r.StaleAppend req) :=
  inferInstanceAs (Decidable (_ ∧ _ ∧ _))

theorem Raft.appendNewEntries_nil (hnil : req.entries = []) : r.appendNewEntries req = r := by
  simp [Raft.appendNewEntries, hnil]

theorem Raft.appendNewEntries_eq (hne : req.entries ≠ []) : r.appendNewEntries req =
      { r with log := ⟨r.log.entries.take (req.prevLogIndex + 1) ++
          req.entries⟩ } := by
  rw [Raft.appendNewEntries, if_neg (by simpa using hne), Log.append, Log.truncate_entries]

theorem Raft.eq_of_not_staleAppend (hstale : ¬ r.StaleAppend req)
    (hpre : (r.appendNewEntries req).log.entries <+: r.log.entries) :
    (r.appendNewEntries req).log.entries = r.log.entries := by
  by_cases hnil : req.entries = []
  · rw [Raft.appendNewEntries_nil hnil]
  rw [Raft.appendNewEntries_eq hnil] at hpre ⊢
  dsimp only at hpre ⊢
  refine hpre.eq_of_length_le ?_
  by_contra hlt
  have hpart : req.entries <+: r.log.entries.drop (req.prevLogIndex + 1) := by
    rw [← List.prefix_append_right_inj
      (r.log.entries.take (req.prevLogIndex + 1)), List.take_append_drop]
    exact hpre
  have hpos := List.length_pos_iff.mpr hnil
  refine hstale ⟨hnil, hpart, ?_⟩
  have hle := hpart.length_le
  simp only [List.length_append, List.length_take, List.length_drop] at hlt hle
  omega

theorem Raft.appendNewEntries_take (hprev : req.prevLogIndex < r.log.entries.length)
    (htake : r.log.entries.take (req.prevLogIndex + 1) = lead.take (req.prevLogIndex + 1))
    (hentries : req.entries <+: lead.drop (req.prevLogIndex + 1)) :
    (r.appendNewEntries req).log.entries.take (req.prevLogIndex + req.entries.length + 1) =
      lead.take (req.prevLogIndex + req.entries.length + 1) := by
  by_cases hnil : req.entries = []
  · rw [Raft.appendNewEntries_nil hnil]
    simpa [hnil] using htake
  · have hsplit : req.prevLogIndex + req.entries.length + 1 =
        (req.prevLogIndex + 1) + req.entries.length := by omega
    rw [Raft.appendNewEntries_eq hnil, hsplit, List.take_add (l := lead),
      ← List.prefix_iff_eq_take.mp hentries, ← htake]
    apply List.take_of_length_le
    simp only [List.length_append, List.length_take]
    omega

theorem Raft.appendNewEntries_prefix (hne : req.entries ≠ [])
    (htake : r.log.entries.take (req.prevLogIndex + 1) = lead.take (req.prevLogIndex + 1))
    (hentries : req.entries <+: lead.drop (req.prevLogIndex + 1)) :
    (r.appendNewEntries req).log.entries <+: lead := by
  have hnew := (List.prefix_append_right_inj (lead.take (req.prevLogIndex + 1))).mpr hentries
  rw [List.take_append_drop, ← htake] at hnew
  rwa [Raft.appendNewEntries_eq hne]

theorem Raft.updateCommit_term (r : Raft C) (req : AppendEntriesRequest C) :
    (r.updateCommit req).1.currentTerm = r.currentTerm := by
  unfold Raft.updateCommit
  split <;> rfl

theorem Raft.appendNewEntries_length (hprev : req.prevLogIndex < r.log.entries.length)
    (hne : req.entries ≠ []) :
    (r.appendNewEntries req).log.entries.length = req.prevLogIndex + req.entries.length + 1 := by
  rw [Raft.appendNewEntries_eq hne]
  simp only [List.length_append, List.length_take]
  omega

theorem Raft.appendNewEntries_term (r : Raft C) (req : AppendEntriesRequest C) :
    (r.appendNewEntries req).currentTerm = r.currentTerm := by
  unfold Raft.appendNewEntries
  split <;> rfl

theorem Raft.followLeader_term (hterm : r.currentTerm ≤ req.term) :
    (r.followLeader req).currentTerm = req.term := by
  unfold Raft.followLeader
  by_cases hlt : r.currentTerm < req.term
  · rw [if_pos hlt, Raft.becomeFollower_of_lt hlt]
  · rw [if_neg hlt]
    dsimp only
    omega

theorem Raft.followLeader_log (r : Raft C) (req : AppendEntriesRequest C) :
    (r.followLeader req).log = r.log := by
  unfold Raft.followLeader Raft.becomeFollower
  split <;> rfl

variable [Inhabited C] {safe : Prop} {n i : ℕ}
variable {c : Cluster C} {h : RaftHistory C}

theorem NodeFollows.take_of_logMatches {e : LogEntry C} (hsound : Sound (members n) h)
    (hnode : NodeFollows n h keys i r) (hwell : WellFormed (h.leaderLog req.term))
    (hprev : (h.leaderLog req.term)[req.prevLogIndex]? = some e)
    (hterm : e.term = req.prevLogTerm) (hmatches : r.logMatches req = true) :
    req.prevLogIndex < r.log.entries.length ∧ r.log.entries.take (req.prevLogIndex + 1) =
        (h.leaderLog req.term).take (req.prevLogIndex + 1) := by
  have hsame : ∃ own, r.log.entries[req.prevLogIndex]? = some own ∧ own.term = e.term := by
    unfold Raft.logMatches at hmatches
    split at hmatches
    · split at hmatches
      · rename_i own hget
        exact ⟨own, (Log.get_eq_some_iff.mp hget).2, (of_decide_eq_true hmatches).trans hterm.symm⟩
      · cases hmatches
    · rename_i hzero
      have hprevZero : req.prevLogIndex = 0 := by omega
      rw [hprevZero] at hprev ⊢
      refine ⟨dummyEntry, hnode.wellFormed.root, ?_⟩
      rw [hwell.root, Option.some.injEq] at hprev
      rw [hprev]
  obtain ⟨own, hown, hownTerm⟩ := hsame
  have hrooted := hsound.rooted_log i
  rw [hnode.log] at hrooted
  exact ⟨(List.getElem?_eq_some_iff.mp hown).1,
    hrooted.take_eq (hsound.rooted_leaderLog req.term) hown hprev hownTerm⟩

theorem Invariant.followLeader (hinv : Invariant safe n c h) (hi : i ∈ members n)
    (hne : source ≠ i) (hwon : h.won req.term = some source)
    (hterm : (c.nodes i).currentTerm ≤ req.term) :
    ∃ later, h.Extends later ∧ later.leaderLog = h.leaderLog ∧
      Invariant safe n (c.withNode i ((c.nodes i).followLeader req)) later := by
  have hnode := hinv.follows.node i hi
  unfold Raft.followLeader
  by_cases hlt : (c.nodes i).currentTerm < req.term
  · rw [if_pos hlt, Raft.becomeFollower_of_lt hlt]
    refine ⟨_, raise_extends (hnode.cur ▸ hlt), rfl, ?_⟩
    exact hinv.stepDown hi hlt req.leaderID
  · rw [if_neg hlt]
    have hsame : (c.nodes i).currentTerm = req.term := by omega
    have hother : h.won (c.nodes i).currentTerm ≠ some i := by
      rw [hsame, hwon]
      simpa using hne
    refine ⟨h, Extends.refl h, rfl, hinv.bookkeeping ?_ ?_⟩
    · constructor
      case nodeID => exact hnode.nodeID
      case peers => exact hnode.peers
      case cur => exact hnode.cur
      case log => exact hnode.log
      case wellFormed => exact hnode.wellFormed
      case vote => exact hnode.vote
      case leader => exact iff_of_false (fun hstate => by cases hstate) hother
      all_goals
        intro hstate
        cases hstate
    · exact fun hsafe => { (hinv.commits hsafe).node i hi with }

theorem Invariant.exists_adopted (hinv : Invariant safe n c h) (hi : i ∈ members n)
    (hpacket : PacketFollows n h (.appendEntries source i req))
    (hterm : (c.nodes i).currentTerm = req.term)
    (htake : (c.nodes i).log.entries.take (req.prevLogIndex + 1) =
      (h.leaderLog req.term).take (req.prevLogIndex + 1))
    (hfresh : safe → ¬ (c.nodes i).StaleAppend req) :
    ∃ mid : RaftHistory C, Sound (members n) mid ∧
      (safe → Complete (members n) mid) ∧ h.Extends mid ∧ OnlyMoves i h mid ∧
      mid.cur = h.cur ∧ mid.vote = h.vote ∧ mid.won = h.won ∧
      mid.leaderLog = h.leaderLog ∧
      mid.log i = ((c.nodes i).appendNewEntries req).log.entries := by
  obtain ⟨hne, hwon, _, hentries⟩ := hpacket
  have hnode := hinv.follows.node i hi
  by_cases hnil : req.entries = []
  · rw [Raft.appendNewEntries_nil hnil]
    exact ⟨h, hinv.sound, fun hsafe => (hinv.commits hsafe).complete,
      Extends.refl h, OnlyMoves.refl i h, rfl, rfl, rfl, rfl, hnode.log⟩
  · have hcur : h.cur i = req.term := hnode.cur.trans hterm
    have hpre := Raft.appendNewEntries_prefix hnil htake hentries
    have hnew : ((c.nodes i).appendNewEntries req).log.entries ≠ [] := by
      rw [Raft.appendNewEntries_eq hnil]
      simp [hnil]
    rw [← hcur] at hwon hpre
    refine ⟨h.adopt i ((c.nodes i).appendNewEntries req).log.entries,
      hinv.sound.adopt hwon hne hnew hpre, ?_, adopt_extends h i _,
      adopt_onlyMoves h i _, rfl, rfl, rfl, rfl, by simp [History.adopt]⟩
    intro hsafe
    refine (hinv.commits hsafe).complete.adopt hinv.sound hwon hpre ?_
    rw [hnode.log]
    exact Raft.eq_of_not_staleAppend (hfresh hsafe)

theorem WellFormed.appendNewEntries (hlog : WellFormed r.log.entries) (hlead : WellFormed lead)
    (htake : r.log.entries.take (req.prevLogIndex + 1) = lead.take (req.prevLogIndex + 1))
    (hentries : req.entries <+: lead.drop (req.prevLogIndex + 1)) :
    WellFormed (r.appendNewEntries req).log.entries := by
  by_cases hnil : req.entries = []
  · rw [Raft.appendNewEntries_nil hnil]
    exact hlog
  · refine hlead.shorten (Raft.appendNewEntries_prefix hnil htake hentries) ?_
    rw [Raft.appendNewEntries_eq hnil]
    simp [hnil]

theorem NodeCommits.take_appendNewEntries (hcomplete : Complete (members n) h)
    (hnode : NodeFollows n h keys i r) (hcommits : NodeCommits n h r)
    (hwell : WellFormed (h.leaderLog req.term)) (hwon : h.won req.term = some source)
    (hterm : r.currentTerm = req.term)
    (htake : r.log.entries.take (req.prevLogIndex + 1) =
      (h.leaderLog req.term).take (req.prevLogIndex + 1))
    (hentries : req.entries <+: (h.leaderLog req.term).drop (req.prevLogIndex + 1))
    (hfresh : ¬ r.StaleAppend req) :
    r.log.entries.take (r.commitIndex + 1) <+: (r.appendNewEntries req).log.entries := by
  by_cases hnil : req.entries = []
  · rw [Raft.appendNewEntries_nil hnil]
    exact List.take_prefix _ _
  · have hlt := hcommits.commit_lt
    have hlead : r.log.entries.take (r.commitIndex + 1) <+: h.leaderLog req.term := by
      rcases hcomplete.settled_prefix hcommits.settled hterm.le hwon with
        hshort | hpre
      · simp only [List.length_take] at hshort
        obtain hzero : r.commitIndex = 0 := by omega
        rw [hzero, hnode.wellFormed.take_one, ← hwell.take_one]
        exact List.take_prefix _ _
      · exact hpre
    rcases List.prefix_or_prefix_of_prefix hlead
      (Raft.appendNewEntries_prefix hnil htake hentries) with hkept | hcut
    · exact hkept
    · rw [Raft.eq_of_not_staleAppend hfresh (hcut.trans (List.take_prefix _ _))]
      exact List.take_prefix _ _

theorem Invariant.appendNewEntries (hinv : Invariant safe n c h) (hi : i ∈ members n)
    (hpacket : PacketFollows n h (.appendEntries source i req))
    (hstate : (c.nodes i).state = .follower)
    (hterm : (c.nodes i).currentTerm = req.term)
    (hprev : req.prevLogIndex < (c.nodes i).log.entries.length)
    (htake : (c.nodes i).log.entries.take (req.prevLogIndex + 1) =
      (h.leaderLog req.term).take (req.prevLogIndex + 1))
    (hfresh : safe → ¬ (c.nodes i).StaleAppend req) :
    ∃ later, h.Extends later ∧ later.leaderLog = h.leaderLog ∧
      req.prevLogIndex + req.entries.length ≤ later.acked i req.term ∧
      Invariant safe n (c.withNode i ((c.nodes i).appendNewEntries req)) later := by
  obtain ⟨mid, hsound, hcomplete, hext, hmoves, hcur, hvote, hwons, hlogs, hlog⟩ :=
    hinv.exists_adopted hi hpacket hterm htake hfresh
  obtain ⟨hne, hwon, ⟨e, hlead, _⟩, hentries⟩ := hpacket
  have hnode := hinv.follows.node i hi
  generalize hr : c.nodes i = r at *
  have hmidCur : mid.cur i = req.term := by
    rw [hcur, hnode.cur, hterm]
  have hnewTake := Raft.appendNewEntries_take hprev htake hentries
  have hbound : req.prevLogIndex + req.entries.length < (mid.leaderLog (mid.cur i)).length := by
    have hle := hentries.length_le
    obtain ⟨hlt, _⟩ := List.getElem?_eq_some_iff.mp hlead
    rw [hmidCur, hlogs]
    simp only [List.length_drop] at hle
    omega
  have hackExt := ack_extends mid i (req.prevLogIndex + req.entries.length)
  have hboth := hext.trans hackExt
  have hwell := hnode.wellFormed.appendNewEntries (hinv.follows.leaderLog req.term) htake hentries
  have hfields : (r.appendNewEntries req).config = r.config ∧
      (r.appendNewEntries req).currentTerm = r.currentTerm ∧
      (r.appendNewEntries req).votedFor = r.votedFor ∧
      (r.appendNewEntries req).state = r.state ∧
      (r.appendNewEntries req).commitIndex = r.commitIndex ∧
      (r.appendNewEntries req).lastApplied = r.lastApplied := by
    unfold Raft.appendNewEntries
    split <;> exact ⟨rfl, rfl, rfl, rfl, rfl, rfl⟩
  obtain ⟨hconfig, hsameTerm, hvoted, hsameState, hcommit, happlied⟩ := hfields
  refine ⟨_, hboth, hlogs, ?_, hinv.withNode (i := i)
    (hsound.ack (hwons ▸ hmidCur ▸ hwon) hbound) ?_ hboth
    (hmoves.trans (ack_onlyMoves mid i _)) ?_ ?_ ?_⟩
  · simp [History.ack, update₂_apply, hmidCur]
  · intro hsafe
    refine (hcomplete hsafe).ack hsound ?_
    rw [hlog, hmidCur, hlogs, ← hnewTake]
    exact List.take_prefix _ _
  · intro t
    change WellFormed (mid.leaderLog t)
    rw [hlogs]
    exact hinv.follows.leaderLog t
  · constructor
    case nodeID => rw [hconfig, hnode.nodeID]
    case peers => rw [hconfig, hnode.peers]
    case cur =>
      rw [hsameTerm, hterm]
      exact hmidCur
    case log => exact hlog
    case wellFormed => exact hwell
    case vote =>
      rw [hsameTerm, hvoted]
      change mid.vote i r.currentTerm = _
      rw [hvote]
      exact hnode.vote
    case leader =>
      rw [hsameState, hsameTerm]
      change _ ↔ mid.won r.currentTerm = some i
      rw [hwons]
      exact hnode.leader
    all_goals
      rw [hsameState, hstate]
      intro hother
      cases hother
  · intro hsafe
    have hold := (hinv.commits hsafe).node i hi
    rw [hr] at hold
    have hkept := hold.take_appendNewEntries (hinv.commits hsafe).complete
      hnode (hinv.follows.leaderLog req.term) hwon hterm htake hentries
      (hfresh hsafe)
    have hlen := hkept.length_le
    have hlt := hold.commit_lt
    simp only [List.length_take] at hlen
    rw [List.prefix_iff_eq_take, List.length_take, Nat.min_eq_left (Nat.succ_le_of_lt hlt)] at hkept
    constructor
    case commit_lt =>
      rw [hcommit]
      omega
    case applied_le =>
      rw [hcommit, happlied]
      exact hold.applied_le
    case settled =>
      rw [hcommit, hsameTerm, ← hkept]
      exact hboth.settled hinv.sound hold.settled le_rfl

theorem NodeFollows.updateCommit (hnode : NodeFollows n h keys i r) (hcommits : NodeCommits n h r)
    (hpacket : PacketCommits n h (.appendEntries source i req))
    (hterm : r.currentTerm = req.term)
    (htake : r.log.entries.take (req.prevLogIndex + req.entries.length + 1) =
      (h.leaderLog req.term).take (req.prevLogIndex + req.entries.length + 1))
    (hlast : req.entries ≠ [] → r.log.entries.length = req.prevLogIndex + req.entries.length + 1)
    (hlt : r.commitIndex < req.leaderCommit) :
    NodeCommits n h
      { r with commitIndex := min req.leaderCommit r.log.last.1 } := by
  obtain ⟨_, hsettled, hempty⟩ := hpacket
  obtain ⟨e, _, hpair, hindex⟩ := hnode.wellFormed.last
  have happlied := hcommits.applied_le
  have hcommit := hcommits.commit_lt
  simp only [hpair]
  have hwithin : min req.leaderCommit e.index ≤ req.prevLogIndex + req.entries.length := by
    by_cases hnil : req.entries = []
    · have hle := hempty hnil
      omega
    · have hlen := hlast hnil
      omega
  constructor
  case commit_lt =>
    change min req.leaderCommit e.index < r.log.entries.length
    omega
  case applied_le =>
    change r.lastApplied ≤ min req.leaderCommit e.index
    omega
  case settled =>
    change Settled _ _ r.currentTerm (r.log.entries.take (min req.leaderCommit e.index + 1))
    have hshort : r.log.entries.take (min req.leaderCommit e.index + 1) =
        (h.leaderLog req.term).take (min req.leaderCommit e.index + 1) := by
      have hcut := congrArg (List.take (min req.leaderCommit e.index + 1)) htake
      simpa only [List.take_take, Nat.min_eq_left (Nat.succ_le_succ hwithin)] using hcut
    rw [hshort, hterm]
    refine hsettled.shorten ?_
    exact List.take_prefix_take_left (by omega)

theorem Invariant.acceptEntries (hinv : Invariant safe n c h) (hi : i ∈ members n)
    (hpacket : PacketFollows n h (.appendEntries source i req))
    (hpacketCommits : safe → PacketCommits n h (.appendEntries source i req))
    (hstate : (c.nodes i).state = .follower)
    (hterm : (c.nodes i).currentTerm = req.term)
    (hmatches : (c.nodes i).logMatches req = true)
    (hfresh : safe → ¬ (c.nodes i).StaleAppend req) :
    ∃ later, h.Extends later ∧ Invariant safe n
      ((c.perform i (((c.nodes i).appendNewEntries req).updateCommit req)).post
        (.appendEntriesResponse i source
          ((((c.nodes i).appendNewEntries req).updateCommit req).1.appendReply
            req true))) later := by
  have hleaderLog := hinv.follows.leaderLog req.term
  obtain ⟨hne, hwon, ⟨e, hget, hprevTerm⟩, hentries⟩ := id hpacket
  obtain ⟨hprev, htake⟩ := (hinv.follows.node i hi).take_of_logMatches
    hinv.sound hleaderLog hget hprevTerm hmatches
  obtain ⟨later, hext, hlogs, hacked, happended⟩ :=
    hinv.appendNewEntries hi hpacket hstate hterm hprev htake hfresh
  have hnewTake := Raft.appendNewEntries_take hprev htake hentries
  have hnewLength := fun hne => Raft.appendNewEntries_length hprev hne
  have hnewTerm := (c.nodes i).appendNewEntries_term req
  have hnode := happended.follows.node i hi
  have hcommits := fun hsafe => (happended.commits hsafe).node i hi
  rw [Cluster.withNode_nodes_self] at hnode hcommits
  generalize (c.nodes i).appendNewEntries req = r at *
  rw [hterm] at hnewTerm
  refine ⟨later, hext, Invariant.post_silent ?_ ?_ (fun _ => trivial) rfl⟩
  · unfold Raft.updateCommit
    split
    · rename_i hlt
      have hupdated : safe → NodeCommits n later
          { r with commitIndex := min req.leaderCommit r.log.last.1 } := by
        intro hsafe
        refine hnode.updateCommit (hcommits hsafe)
          (PacketCommits.mono hext hinv.sound hpacket (hpacketCommits hsafe))
          hnewTerm ?_
          hnewLength hlt
        rw [hlogs]
        exact hnewTake
      have hsame : NodeFollows n later (voteKeys c.network) i
          { r with commitIndex := min req.leaderCommit r.log.last.1 } :=
        { hnode with }
      obtain ⟨hdone, heffects⟩ := happended.applyCommitted hsame hupdated
      rw [Cluster.withNode_withNode] at hdone
      exact Invariant.perform hdone heffects
    · rw [Cluster.perform_nil]
      exact happended
  · refine ⟨hi, hne.symm, ?_⟩
    intro _
    simp only [Raft.appendReply, Raft.updateCommit_term, if_true, hnewTerm]
    exact hacked

theorem Invariant.appendEntries (hinv : Invariant safe n c h) (hi : i ∈ members n)
    {k : ℕ} (hk : c.network[k]? = some (.appendEntries source i req))
    (hfresh : safe → (c.nodes i).currentTerm ≤ req.term →
      (c.nodes i).logMatches req = true → ¬ (c.nodes i).StaleAppend req) :
    ∃ later, h.Extends later ∧ Invariant safe n
      ((c.remove k).receive (.appendEntries source i req)) later := by
  have hmem := List.mem_of_getElem? hk
  have hpacket := hinv.follows.packet _ hmem
  have hpacketCommits := fun hsafe => (hinv.commits hsafe).packet _ hmem
  have hremoved := hinv.remove k
  have hnodes : (c.remove k).nodes = c.nodes := rfl
  obtain ⟨hne, hwon, _⟩ := id hpacket
  have hrefused : ∀ later r, PacketFollows n later
      (.appendEntriesResponse i source (Raft.appendReply r req false) : Packet C) :=
    fun later r => ⟨hi, hne.symm, fun hsuccess => by cases hsuccess⟩
  simp only [Cluster.receive, hnodes, Raft.handleAppendEntries]
  split
  · refine ⟨h, .refl h, Invariant.post_silent ?_ (hrefused _ _) (fun _ => trivial) rfl⟩
    exact hremoved.effects (by simp)
  · rename_i hnotOlder
    have hterm : (c.nodes i).currentTerm ≤ req.term := by omega
    obtain ⟨later, hext, hlogs, hfollowed⟩ := hremoved.followLeader hi hne hwon hterm
    rw [hnodes] at hfollowed
    split
    · rename_i hmatches
      have haccepted := hfollowed.acceptEntries hi (PacketFollows.mono hext hpacket) fun hsafe =>
          PacketCommits.mono hext hinv.sound hpacket (hpacketCommits hsafe)
      rw [Cluster.withNode_nodes_self, Cluster.withNode_perform] at haccepted
      refine (haccepted rfl (Raft.followLeader_term hterm) hmatches ?_).imp
        fun _ hdone => ⟨hext.trans hdone.1, hdone.2⟩
      intro hsafe
      have hlog := (c.nodes i).followLeader_log req
      rw [Raft.StaleAppend, hlog]
      rw [Raft.logMatches, hlog] at hmatches
      exact hfresh hsafe hterm hmatches
    · refine ⟨later, hext, Invariant.post_silent ?_ (hrefused _ _) (fun _ => trivial) rfl⟩
      rw [Cluster.perform_nil]
      exact hfollowed

end MCache.Consensus

import MCache.RaftSafety

/-!
# What a leader records about its peers

A leader keeps for each peer the index it knows to be replicated and the index
it sends next.  The second never passes the end of its log, in any run.  That
it stays ahead of the first depends on the run: a refusal that arrives after a
later success takes it back, because a refusal does not say to which request
it belongs.
-/

namespace MCache.Consensus

variable {C : Type}

namespace Raft

def matched (r : Raft C) (p : ℕ) : ℕ := (r.matchIndex.lookup p).getD 0

def next (r : Raft C) (p : ℕ) : ℕ := (r.nextIndex.lookup p).getD 0

structure Ordered (r : Raft C) (p : ℕ) : Prop where
  matched_lt : r.matched p < r.next p
  next_le : r.next p ≤ r.log.last.1 + 1
  unknown : ∀ req, .sendAppendEntries p req ∈ r.sendAppendEntriesTo p →
    ∀ e ∈ req.entries, r.matched p < e.index
  previous : ∀ req, .sendAppendEntries p req ∈ r.sendAppendEntriesTo p →
    req.prevLogIndex = 0 ∨ (r.log.get req.prevLogIndex).isSome

def Ahead (r : Raft C) : Prop := r.state = .leader → ∀ p ∈ r.config.others, r.matched p < r.next p

def TakesBack (r : Raft C) (source : ℕ) (resp : AppendEntriesResponse) : Prop :=
  r.state = .leader ∧ resp.term = r.currentTerm ∧ resp.success = false ∧
    1 < r.next source ∧ r.next source ≤ r.matched source + 1

instance (r : Raft C) (source : ℕ) (resp : AppendEntriesResponse) :
    Decidable (r.TakesBack source resp) :=
  inferInstanceAs (Decidable (_ ∧ _ ∧ _ ∧ _ ∧ _))

variable {r later : Raft C}

theorem Ahead.of_not_leader (hstate : r.state ≠ .leader) : r.Ahead :=
  fun hleader => absurd hleader hstate

theorem Ahead.of_eq (hahead : r.Ahead) (hstate : later.state = r.state)
    (hconfig : later.config = r.config) (hmatch : later.matchIndex = r.matchIndex)
    (hnext : later.nextIndex = r.nextIndex) : later.Ahead := by
  intro hleader p hp
  rw [hstate] at hleader
  rw [hconfig] at hp
  rw [matched, next, hmatch, hnext]
  exact hahead hleader p hp

theorem Ahead.advanceCommitIndex (hahead : r.Ahead) : r.advanceCommitIndex.1.Ahead := by
  unfold Raft.advanceCommitIndex
  split
  · exact hahead
  · exact hahead.of_eq rfl rfl rfl rfl

theorem becomeFollower_ahead (r : Raft C) (term : ℕ) : (r.becomeFollower term).Ahead := by
  refine .of_not_leader ?_
  unfold becomeFollower
  split <;> exact State.noConfusion

theorem becomeLeader_ahead (r : Raft C) : r.becomeLeader.1.Ahead := by
  intro _ p hp
  change p ∈ r.config.others at hp
  have hlookup : ∀ value : ℕ, (r.config.others.foldl
      (fun (m : IndexMap) pid => m.insert pid value) ∅).lookup p = some value := by
    intro value
    rw [lookup_foldl_insert, if_pos hp]
  rw [matched, next, becomeLeader, hlookup, hlookup]
  exact Nat.succ_pos _

theorem Ahead.handleElectionTimeout (hahead : r.Ahead) : r.handleElectionTimeout.1.Ahead := by
  unfold Raft.handleElectionTimeout
  split
  · exact hahead
  · exact .of_not_leader State.noConfusion

theorem Ahead.handleHeartbeatTimeout (hahead : r.Ahead) : r.handleHeartbeatTimeout.1.Ahead := by
  unfold Raft.handleHeartbeatTimeout
  split <;> exact hahead

theorem Ahead.handlePropose (hahead : r.Ahead) (cmd : C) : (r.handlePropose cmd).1.Ahead := by
  unfold Raft.handlePropose
  split
  · exact hahead
  · exact Ahead.advanceCommitIndex (hahead.of_eq rfl rfl rfl rfl)

theorem Ahead.handleAppendEntries (hahead : r.Ahead) (req : AppendEntriesRequest C) :
    (r.handleAppendEntries req).1.Ahead := by
  unfold Raft.handleAppendEntries
  split
  · exact hahead
  · dsimp only
    have hfollower : ((r.followLeader req).appendNewEntries req).state = .follower := by
      unfold appendNewEntries
      split <;> rfl
    split
    · refine .of_not_leader fun hleader => ?_
      unfold updateCommit at hleader
      split at hleader <;> cases hfollower.symm.trans hleader
    · exact .of_not_leader State.noConfusion

theorem Ahead.handleRequestVote (hahead : r.Ahead) (req : RequestVoteRequest) :
    (r.handleRequestVote req).1.Ahead := by
  have hraised : (if r.currentTerm < req.term then r.becomeFollower req.term
      else r).Ahead := by
    split
    · exact r.becomeFollower_ahead _
    · exact hahead
  unfold Raft.handleRequestVote
  split
  · exact hahead
  · dsimp only
    generalize (if r.currentTerm < req.term then r.becomeFollower req.term else r) =
      raised at hraised ⊢
    split
    · exact hraised.of_eq rfl rfl rfl rfl
    · exact hraised

theorem Ahead.handleRequestVoteResponse (hahead : r.Ahead) (resp : RequestVoteResponse) :
    (r.handleRequestVoteResponse resp).1.Ahead := by
  unfold Raft.handleRequestVoteResponse
  split
  · exact r.becomeFollower_ahead _
  split
  · exact hahead
  split
  · dsimp only
    split
    · exact becomeLeader_ahead _
    · exact hahead.of_eq rfl rfl rfl rfl
  · exact hahead

theorem getD_lookup_insert (m : IndexMap) (source p x : ℕ) : ((m.insert source x).lookup p).getD 0 =
      if p = source then x else (m.lookup p).getD 0 := by
  split_ifs with hp
  · subst hp
    rw [AList.lookup_insert, Option.getD_some]
  · rw [AList.lookup_insert_ne hp]

theorem Ahead.handleAppendEntriesResponse (hahead : r.Ahead) {source : ℕ}
    {resp : AppendEntriesResponse} (hkeeps : ¬ r.TakesBack source resp) :
    (r.handleAppendEntriesResponse source resp).1.Ahead := by
  unfold Raft.handleAppendEntriesResponse
  split
  · exact r.becomeFollower_ahead _
  split
  · exact hahead
  rename_i hnotNewer hcurrent
  have hstate : r.state = .leader := by
    by_contra hnot
    exact hcurrent (.inr hnot)
  split
  · refine Ahead.advanceCommitIndex ?_
    split
    · intro _ p hp
      rw [matched, next, getD_lookup_insert, getD_lookup_insert]
      split_ifs
      · exact Nat.lt_succ_self _
      · exact hahead hstate p hp
    · exact hahead
  · rename_i hrefused
    dsimp only
    split
    · rename_i hnext
      intro _ p hp
      have hbehind := hahead hstate p hp
      rw [matched, next, getD_lookup_insert]
      split_ifs with hsource
      · subst hsource
        by_contra hback
        change ¬ r.matched p < r.next p - 1 at hback
        exact hkeeps ⟨hstate, by omega, Bool.eq_false_of_not_eq_true hrefused, hnext,
          by omega⟩
      · exact hbehind
    · exact hahead

theorem TakesBack.not_ahead {source : ℕ} {resp : AppendEntriesResponse}
    (hback : r.TakesBack source resp) (hsource : source ∈ r.config.others) :
    ¬ (r.handleAppendEntriesResponse source resp).1.Ahead := by
  obtain ⟨hstate, hterm, hrefused, hnext, hbehind⟩ := hback
  have hresult : (r.handleAppendEntriesResponse source resp).1 =
      { r with nextIndex := r.nextIndex.insert source (r.next source - 1) } := by
    unfold Raft.handleAppendEntriesResponse
    rw [if_neg (by omega), if_neg (by rintro (hold | hnot); omega; exact hnot hstate),
      if_neg (by rw [hrefused]; exact Bool.false_ne_true)]
    exact if_pos hnext
  intro hahead
  rw [hresult] at hahead
  have hlt : r.matched source <
      ((r.nextIndex.insert source (r.next source - 1)).lookup source).getD 0 :=
    hahead hstate source hsource
  rw [getD_lookup_insert, if_pos rfl] at hlt
  omega

end Raft

namespace Cluster

def TakesBack (c : Cluster C) : Packet C → Prop
  | .appendEntriesResponse source target resp => (c.nodes target).TakesBack source resp
  | _ => False

instance (c : Cluster C) : DecidablePred c.TakesBack
  | .appendEntriesResponse source target resp =>
    inferInstanceAs (Decidable ((c.nodes target).TakesBack source resp))
  | .appendEntries _ _ _ => inferInstanceAs (Decidable False)
  | .requestVote _ _ _ => inferInstanceAs (Decidable False)
  | .requestVoteResponse _ _ _ => inferInstanceAs (Decidable False)

def NoLateRefusal (c : Cluster C) (a : Action C) : Prop := ∀ p ∈ c.delivered? a, ¬ c.TakesBack p

instance (c : Cluster C) (a : Action C) : Decidable (c.NoLateRefusal a) :=
  inferInstanceAs (Decidable (∀ p ∈ c.delivered? a, ¬ c.TakesBack p))

def Ordered (n : ℕ) (c : Cluster C) : Prop := ∀ i ∈ members n, (c.nodes i).state = .leader →
    ∀ p ∈ (c.nodes i).config.others, (c.nodes i).Ordered p

def WithinLog (n : ℕ) (c : Cluster C) : Prop := ∀ i ∈ members n, (c.nodes i).state = .leader →
    (∀ p ∈ (c.nodes i).config.others, (c.nodes i).next p ≤ (c.nodes i).log.last.1 + 1) ∧
      ∀ p req, .appendEntries i p req ∈ c.network → req.term = (c.nodes i).currentTerm →
        req.prevLogIndex = 0 ∨ ((c.nodes i).log.get req.prevLogIndex).isSome

theorem step_ahead {c next : Cluster C} {n j : ℕ} {a : Action C}
    (hahead : (c.nodes j).Ahead) (hallowed : c.NoLateRefusal a)
    (hstep : c.step n a = some next) : (next.nodes j).Ahead := by
  rcases nodeStep_of_step hstep j with hsame | ⟨-, hnode⟩
  · rwa [hsame]
  · generalize next.nodes j = later at hnode ⊢
    cases hnode with
    | electionTimeout => exact hahead.handleElectionTimeout
    | heartbeatTimeout => exact hahead.handleHeartbeatTimeout
    | propose _ cmd => exact hahead.handlePropose cmd
    | appendEntries _ => exact hahead.handleAppendEntries _
    | appendEntriesResponse hget =>
      exact hahead.handleAppendEntriesResponse (hallowed _ hget)
    | requestVote _ => exact hahead.handleRequestVote _
    | requestVoteResponse _ => exact hahead.handleRequestVoteResponse _

end Cluster

variable [Inhabited C] {n i : ℕ} {c : Cluster C} {h : RaftHistory C}

theorem NodeFollows.next_le {keys : List (ℕ × ℕ × ℕ)} {r : Raft C}
    (hnode : NodeFollows n h keys i r) (hstate : r.state = .leader) (p : ℕ) :
    r.next p ≤ r.log.last.1 + 1 := by
  obtain ⟨_, _, hpair, hindex⟩ := hnode.wellFormed.last
  rw [hpair, hindex, Raft.next]
  cases hlookup : r.nextIndex.lookup p with
  | none => exact Nat.zero_le _
  | some next => exact (hnode.next hstate p next hlookup).2.2

theorem Invariant.withinLog (hinv : Invariant False n c h) : c.WithinLog n := by
  intro i hi hstate
  have hnode := hinv.follows.node i hi
  refine ⟨fun p _ => hnode.next_le hstate p, fun p req hmem hterm => ?_⟩
  obtain ⟨-, -, ⟨e, hget, -⟩, -⟩ := hinv.follows.packet _ hmem
  rw [hterm, hnode.leaderLog_eq hinv.sound hstate] at hget
  rcases Nat.eq_zero_or_pos req.prevLogIndex with hzero | hpos
  · exact .inl hzero
  · rw [Log.get_eq_some_iff.mpr ⟨hpos, hget⟩]
    exact .inr rfl

theorem WellFormed.index_of_mem_slice {log : Log C} (hlog : WellFormed log.entries)
    {next : ℕ} (hnext : 0 < next) {e : LogEntry C}
    (he : e ∈ log.slice next (next + 100)) : next ≤ e.index := by
  rw [Log.slice_eq log hnext] at he
  obtain ⟨k, hk⟩ := List.mem_iff_getElem?.mp (List.mem_of_mem_take he)
  rw [List.getElem?_drop] at hk
  rw [hlog.indexed _ e hk]
  exact Nat.le_add_right next k

theorem NodeFollows.ordered {keys : List (ℕ × ℕ × ℕ)} {r : Raft C} {p : ℕ}
    (hnode : NodeFollows n h keys i r) (hstate : r.state = .leader)
    (hlt : r.matched p < r.next p) : r.Ordered p := by
  obtain ⟨next, hlookup⟩ : ∃ next, r.nextIndex.lookup p = some next := by
    cases hlookup : r.nextIndex.lookup p with
    | none =>
      rw [Raft.next, hlookup] at hlt
      cases hlt
    | some next => exact ⟨next, rfl⟩
  have hnext : r.next p = next := by rw [Raft.next, hlookup, Option.getD_some]
  have hrequest : ∀ req, .sendAppendEntries p req ∈ r.sendAppendEntriesTo p →
      req.prevLogIndex = next - 1 ∧ req.entries = r.log.slice next (next + 100) := by
    intro req hreq
    rw [Raft.sendAppendEntriesTo, hlookup] at hreq
    cases List.mem_singleton.mp hreq
    exact ⟨rfl, rfl⟩
  obtain ⟨-, hpos, hlength⟩ := hnode.next hstate p next hlookup
  refine ⟨hlt, hnode.next_le hstate p, fun req hreq e he => ?_, fun req hreq => ?_⟩
  · rw [(hrequest req hreq).2] at he
    have hindex := hnode.wellFormed.index_of_mem_slice hpos he
    omega
  · rw [(hrequest req hreq).1]
    rcases Nat.eq_zero_or_pos (next - 1) with hzero | hprev
    · exact .inl hzero
    · have hget := List.getElem?_eq_getElem (show next - 1 < r.log.entries.length by omega)
      rw [Log.get_eq_some_iff.mpr ⟨hprev, hget⟩]
      exact .inr rfl

theorem Invariant.step_not_ordered (hinv : Invariant False n c h) {next : Cluster C}
    {a : Action C} (hlate : ¬ c.NoLateRefusal a) (hstep : c.step n a = some next) :
    ¬ next.Ordered n := by
  simp only [Cluster.NoLateRefusal, not_forall, not_not] at hlate
  obtain ⟨packet, hget, hback⟩ := hlate
  cases a with
  | deliver position =>
    cases packet with
    | appendEntriesResponse source target resp =>
      change c.network[position]? = some _ at hget
      simp only [Cluster.step, hget, Option.ite_none_right_eq_some, Option.some.injEq] at hstep
      obtain ⟨hi, rfl⟩ := hstep
      have hnode := hinv.follows.node target hi
      obtain ⟨hmember, hne, -⟩ := hinv.follows.packet _ (List.mem_of_getElem? hget)
      have hsource : source ∈ (c.nodes target).config.others := by
        rw [Config.mem_others_iff, hnode.peers, hnode.nodeID]
        exact ⟨hmember, hne⟩
      intro hordered
      refine hback.not_ahead hsource fun hleader p hp => ?_
      have hp' := hordered target hi
      simp only [Cluster.receive, Cluster.perform, Function.update_self] at hp'
      exact (hp' hleader p hp).matched_lt
    | _ => exact hback.elim
  | _ => cases hget

def Cluster.Tracked (n : ℕ) (c : Cluster C) : Prop :=
  (∃ h, Invariant False n c h) ∧ ∀ i, (c.nodes i).Ahead

theorem leader_bookkeeping_iff {start final : Cluster C} {actions : List (Action C)}
    (hinit : (system C n).init start)
    (hrun : (system C n).runFrom start actions = some final) :
    (∀ before, before <+: actions → ∀ c,
        (system C n).runFrom start before = some c → c.WithinLog n) ∧
      ((∀ before, before <+: actions → ∀ c,
          (system C n).runFrom start before = some c → c.Ordered n) ↔
        (system C n).runBy Cluster.NoLateRefusal start actions = some final) := by
  have hstart : start.Tracked n := by
    obtain ⟨peers, hpeers, rfl⟩ := hinit
    exact ⟨⟨_, initial_invariant hpeers⟩, fun i => .of_not_leader State.noConfusion⟩
  refine ⟨fun before _ c hbefore => ?_, ?_⟩
  · have hreach : (system C n).Reachable c := (.runBy (.init hinit) hbefore)
    obtain ⟨h, hinv⟩ := reachable_invariant False.elim hreach
    exact hinv.withinLog
  · refine TransitionSystem.along_iff_of_breaks ?_ ?_ ?_ hstart hrun
    · rintro c ⟨⟨h, hinv⟩, hahead⟩ i hi hstate p hp
      exact (hinv.follows.node i hi).ordered hstate (hahead i hstate p hp)
    · rintro c a next ⟨⟨h, hinv⟩, hahead⟩ hallowed hstep
      exact ⟨hinv.step False.elim hstep, fun i => Cluster.step_ahead (hahead i) hallowed hstep⟩
    · rintro c a next ⟨⟨h, hinv⟩, -⟩ hlate hstep
      exact hinv.step_not_ordered hlate hstep

theorem leader_bookkeeping_commitFirst :
    ∃ c, (system (List UInt8) 3).runFrom threeNodes commitFirst = some c ∧
      (c.nodes 1).matched 2 = 1 ∧ (c.nodes 1).next 2 = 2 ∧ c.Ordered 3 := by
  have hrun : ((system (List UInt8) 3).runBy Cluster.NoLateRefusal threeNodes
      commitFirst).map (fun c => ((c.nodes 1).matched 2, (c.nodes 1).next 2)) =
      some (1, 2) := by
    decide +kernel
  obtain ⟨c, hallowed, hindices⟩ := Option.map_eq_some_iff.mp hrun
  obtain ⟨hmatched, hnext⟩ := Prod.mk.inj hindices
  have hfrom := TransitionSystem.runFrom_of_runBy hallowed
  refine ⟨c, hfrom, hmatched, hnext, ?_⟩
  exact (leader_bookkeeping_iff threeNodes_init hfrom).2.mpr hallowed commitFirst
    List.prefix_rfl c hfrom

def twoNodes : Cluster (List UInt8) := Cluster.initial fun _ => ["a", "b"]

theorem twoNodes_init : (system (List UInt8) 2).init twoNodes := ⟨_, fun _ => rfl, rfl⟩

def electAgain : List (Action (List UInt8)) :=
  [.electionTimeout 1, .deliver 0, .deliver 0, .propose 1 [1], .lose 0,
    .electionTimeout 2, .deliver 0, .lose 0, .electionTimeout 1, .deliver 0, .deliver 0]

def refuseTwice : List (Action (List UInt8)) :=
  [.heartbeatTimeout 1, .heartbeatTimeout 1, .deliver 0, .deliver 0, .deliver 0,
    .deliver 1, .deliver 1, .deliver 0]

theorem late_refusal_takes_back :
    ∃ c, (system (List UInt8) 2).Reachable c ∧ (c.nodes 1).state = .leader ∧
      (c.nodes 1).matched 2 = 1 ∧ (c.nodes 1).next 2 = 1 ∧
      c.network = [.appendEntries 1 2 ⟨3, 1, 0, 0, [⟨1, 1, [1]⟩], 0⟩] := by
  have hrun : ((system (List UInt8) 2).runFrom twoNodes (electAgain ++ refuseTwice)).map
      (fun c => ((c.nodes 1).state, (c.nodes 1).matched 2, (c.nodes 1).next 2, c.network)) =
      some (.leader, 1, 1, [.appendEntries 1 2 ⟨3, 1, 0, 0, [⟨1, 1, [1]⟩], 0⟩]) := by
    rfl
  obtain ⟨c, hreach, hfinal⟩ := TransitionSystem.exists_reachableBy twoNodes_init hrun
  simp only [Prod.mk.injEq] at hfinal
  exact ⟨c, hreach, hfinal⟩

end MCache.Consensus

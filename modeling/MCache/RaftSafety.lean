import MCache.RaftAppendSteps

/-!
# Safety of the cluster

The invariant holds in every reachable state.  Its part about elections and
logs needs no condition on the run; its part about commit indices is lost when
a node accepts a stale append request, because the truncation then removes
entries that the leader may already have counted.
-/

namespace MCache.Consensus

open History

variable {C : Type}

def Cluster.AcceptsStale (c : Cluster C) : Packet C → Prop
  | .appendEntries _ target req =>
    (c.nodes target).currentTerm ≤ req.term ∧ (c.nodes target).logMatches req = true ∧
      (c.nodes target).StaleAppend req
  | _ => False

instance [DecidableEq C] (c : Cluster C) : DecidablePred c.AcceptsStale
  | .appendEntries _ _ _ => inferInstanceAs (Decidable (_ ∧ _ ∧ _))
  | .appendEntriesResponse _ _ _ => inferInstanceAs (Decidable False)
  | .requestVote _ _ _ => inferInstanceAs (Decidable False)
  | .requestVoteResponse _ _ _ => inferInstanceAs (Decidable False)

def Cluster.delivered? (c : Cluster C) : Action C → Option (Packet C)
  | .deliver position => c.network[position]?
  | _ => none

def Cluster.NoStaleAppend (c : Cluster C) (a : Action C) : Prop :=
  ∀ p ∈ c.delivered? a, ¬ c.AcceptsStale p

instance [DecidableEq C] (c : Cluster C) (a : Action C) : Decidable (c.NoStaleAppend a) :=
  inferInstanceAs (Decidable (∀ p ∈ c.delivered? a, ¬ c.AcceptsStale p))

structure Raft.Keeps (r later : Raft C) : Prop where
  commit : r.commitIndex ≤ later.commitIndex
  entries : r.log.entries.take (r.commitIndex + 1) <+: later.log.entries

theorem Raft.Keeps.of_eq {r later : Raft C}
    (hcommit : later.commitIndex = r.commitIndex) (hlog : later.log = r.log) :
    r.Keeps later where
  commit := hcommit.ge
  entries := by
    rw [hlog]
    exact List.take_prefix _ _

theorem Raft.Keeps.refl (r : Raft C) : r.Keeps r := .of_eq rfl rfl

theorem Raft.becomeFollower_keeps (r : Raft C) (term : ℕ) : r.Keeps (r.becomeFollower term) := by
  unfold Raft.becomeFollower
  split <;> exact .of_eq rfl rfl

theorem Raft.advanceCommitIndex_keeps (r : Raft C) : r.Keeps r.advanceCommitIndex.1 := by
  unfold Raft.advanceCommitIndex
  split
  · exact .refl r
  · refine ⟨?_, List.take_prefix _ _⟩
    change r.commitIndex ≤ r.advanceLoop _ _ _
    rcases advanceLoop_spec r (r.log.entries.drop (r.commitIndex + 1))
      (r.commitIndex + 1) r.commitIndex with hstay | ⟨m, _, _, heq, _⟩
    · exact hstay.ge
    · omega

theorem Raft.advanceCommitIndex_log (r : Raft C) : r.advanceCommitIndex.1.log = r.log := by
  unfold Raft.advanceCommitIndex
  split <;> rfl

theorem Raft.handleElectionTimeout_keeps (r : Raft C) : r.Keeps r.handleElectionTimeout.1 := by
  unfold Raft.handleElectionTimeout
  split <;> exact .of_eq rfl rfl

theorem Raft.handleHeartbeatTimeout_keeps (r : Raft C) : r.Keeps r.handleHeartbeatTimeout.1 := by
  unfold Raft.handleHeartbeatTimeout
  split <;> exact .refl r

theorem Raft.handlePropose_keeps (r : Raft C) (cmd : C) : r.Keeps (r.handlePropose cmd).1 := by
  unfold Raft.handlePropose
  split
  · exact .refl r
  · have hadvance := Raft.advanceCommitIndex_keeps { r with
      log := r.log.append [{ index := r.log.last.1 + 1, term := r.currentTerm, command := cmd }] }
    refine ⟨hadvance.commit, ?_⟩
    simp only [Raft.advanceCommitIndex_log]
    exact (List.take_prefix _ _).trans (List.prefix_append _ _)

theorem Raft.handleAppendEntriesResponse_keeps (r : Raft C) (source : ℕ)
    (resp : AppendEntriesResponse) :
    r.Keeps (r.handleAppendEntriesResponse source resp).1 := by
  unfold Raft.handleAppendEntriesResponse
  split
  · exact r.becomeFollower_keeps _
  split
  · exact .refl r
  split
  · dsimp only
    split
    · exact { Raft.advanceCommitIndex_keeps { r with
        matchIndex := r.matchIndex.insert source resp.lastIndex
        nextIndex := r.nextIndex.insert source (resp.lastIndex + 1) } with }
    · exact r.advanceCommitIndex_keeps
  · dsimp only
    split <;> exact .of_eq rfl rfl

theorem Raft.handleRequestVote_keeps (r : Raft C) (req : RequestVoteRequest) :
    r.Keeps (r.handleRequestVote req).1 := by
  have hfollow := r.becomeFollower_keeps req.term
  unfold Raft.handleRequestVote
  split
  · exact .refl r
  · dsimp only
    split <;> split
    · exact { hfollow with }
    · exact hfollow
    · exact .of_eq rfl rfl
    · exact .refl r

theorem Raft.handleRequestVoteResponse_keeps (r : Raft C) (resp : RequestVoteResponse) :
    r.Keeps (r.handleRequestVoteResponse resp).1 := by
  unfold Raft.handleRequestVoteResponse
  split
  · exact r.becomeFollower_keeps _
  split
  · exact .refl r
  split
  · dsimp only
    split <;> exact .of_eq rfl rfl
  · exact .refl r

variable [Inhabited C] {safe : Prop} {n i : ℕ}
variable {c : Cluster C} {h : RaftHistory C}

theorem Invariant.handleAppendEntries_keeps (hinv : Invariant True n c h) (hi : i ∈ members n)
    {source : ℕ} {req : AppendEntriesRequest C}
    (hpacket : PacketFollows n h (.appendEntries source i req))
    (hfresh : ¬ c.AcceptsStale (.appendEntries source i req)) :
    (c.nodes i).Keeps ((c.nodes i).handleAppendEntries req).1 := by
  unfold Raft.handleAppendEntries
  split
  · exact .refl _
  rename_i hnotOlder
  have hterm : (c.nodes i).currentTerm ≤ req.term := by omega
  have hlog := (c.nodes i).followLeader_log req
  have hcommit : ((c.nodes i).followLeader req).commitIndex = (c.nodes i).commitIndex := by
    unfold Raft.followLeader Raft.becomeFollower
    split <;> rfl
  dsimp only
  split
  · rename_i hmatches
    obtain ⟨later, hext, _, hfollowed⟩ := hinv.followLeader hi hpacket.1 hpacket.2.1 hterm
    have hlater := PacketFollows.mono hext hpacket
    have hnode := hfollowed.follows.node i hi
    have hcommits := (hfollowed.commits trivial).node i hi
    rw [Cluster.withNode_nodes_self] at hnode hcommits
    obtain ⟨_, hwon, ⟨e, hget, hprevTerm⟩, hentries⟩ := hlater
    obtain ⟨_, htake⟩ := hnode.take_of_logMatches hfollowed.sound
      (hfollowed.follows.leaderLog req.term) hget hprevTerm hmatches
    have hstale : ¬ ((c.nodes i).followLeader req).StaleAppend req := by
      rw [Raft.StaleAppend, hlog]
      rw [Raft.logMatches, hlog] at hmatches
      exact fun hbad => hfresh ⟨hterm, hmatches, hbad⟩
    have hkept := hcommits.take_appendNewEntries (hfollowed.commits trivial).complete hnode
      (hfollowed.follows.leaderLog req.term) hwon
      (Raft.followLeader_term hterm) htake hentries hstale
    have hlt := hcommits.commit_lt
    rw [hlog, hcommit] at hkept hlt
    have hnewCommit : (((c.nodes i).followLeader req).appendNewEntries
        req).commitIndex = (c.nodes i).commitIndex := by
      rw [← hcommit, Raft.appendNewEntries]
      split <;> rfl
    unfold Raft.updateCommit
    split
    · rename_i hbehind
      refine ⟨?_, hkept⟩
      obtain ⟨last, _, hpair, hindex⟩ := (hnode.wellFormed.appendNewEntries
        (hfollowed.follows.leaderLog req.term) htake hentries).last
      have hlen := hkept.length_le
      rw [hnewCommit] at hbehind
      simp only [List.length_take] at hlen
      simp only [Raft.applyCommitted, hpair]
      omega
    · exact ⟨hnewCommit.ge, hkept⟩
  · exact .of_eq hcommit hlog

theorem initial_invariant {peers : ℕ → List String} (hpeers : ∀ i, (peers i).length = n) :
    Invariant safe n (Cluster.initial peers : Cluster C)
      (History.initial LogEntry.term ℕ dummyEntry) where
  sound := initial_sound _ _ rfl
  follows :=
    { node := by
        intro i _
        constructor
        case peers => exact hpeers i
        case wellFormed =>
          refine ⟨rfl, ?_⟩
          intro k e hget
          cases k with
          | zero =>
            cases hget
            rfl
          | succ k => cases hget
        case leader =>
          exact iff_of_false (fun hstate => by cases hstate) (fun hwon => by cases hwon)
        case bid | votes | next | matched | selfAcked =>
          intro hstate
          cases hstate
        all_goals rfl
      packet := fun p hp => by cases hp
      keys := List.nodup_nil
      leaderLog := by
        intro t
        refine ⟨rfl, ?_⟩
        intro k e hget
        cases k with
        | zero =>
          cases hget
          rfl
        | succ k => cases hget
      elections := fun i t hmem => by cases hmem }
  commits := fun _ =>
    { complete := initial_complete _ _
      node := fun i _ =>
        { commit_lt := Nat.one_pos
          applied_le := le_rfl
          settled := .inl le_rfl }
      packet := fun p hp => by cases hp
      message := fun i msg hmem => by cases hmem }

theorem Invariant.step_extends (hinv : Invariant safe n c h) {a : Action C} {next : Cluster C}
    (hallowed : safe → c.NoStaleAppend a)
    (hstep : c.step n a = some next) :
    ∃ later, h.Extends later ∧ Invariant safe n next later := by
  cases Cluster.steps_of_step hstep with
  | electionTimeout hi => exact hinv.electionTimeout hi
  | heartbeatTimeout hi => exact ⟨h, .refl h, hinv.heartbeatTimeout hi⟩
  | propose cmd hi => exact hinv.propose hi cmd
  | @deliver position packet hget hi =>
    cases packet with
    | appendEntries source target req =>
      refine hinv.appendEntries hi hget ?_
      intro hsafe hterm hmatches hstale
      exact hallowed hsafe _ hget ⟨hterm, hmatches, hstale⟩
    | appendEntriesResponse source target resp =>
      exact hinv.appendEntriesResponse hi hget
    | requestVote source target req => exact hinv.requestVote hi hget
    | requestVoteResponse source target resp => exact hinv.requestVoteResponse hi hget
  | lose hposition => exact ⟨h, .refl h, hinv.remove _⟩

theorem Invariant.step (hinv : Invariant safe n c h) {a : Action C} {next : Cluster C}
    (hallowed : safe → c.NoStaleAppend a)
    (hstep : c.step n a = some next) :
    ∃ later, Invariant safe n next later :=
  (hinv.step_extends hallowed hstep).imp fun _ hlater => hlater.2

theorem reachable_invariant {allowed : Cluster C → Action C → Prop}
    (hsafe : safe → ∀ s a, allowed s a → s.NoStaleAppend a)
    (hreach : (system C n).ReachableBy allowed c) :
    ∃ h, Invariant safe n c h := by
  refine hreach.invariant (fun c => ∃ h, Invariant safe n c h) ?_ ?_
  · rintro _ ⟨peers, hpeers, rfl⟩
    exact ⟨_, initial_invariant hpeers⟩
  · rintro s a next ⟨h, hinv⟩ hallowed hstep
    exact hinv.step (fun hs => hsafe hs s a hallowed) hstep

theorem Invariant.step_keeps (hinv : Invariant True n c h) {a : Action C} {next : Cluster C}
    (hallowed : c.NoStaleAppend a) (hstep : c.step n a = some next) (j : ℕ) :
    (c.nodes j).Keeps (next.nodes j) := by
  rcases Cluster.nodeStep_of_step hstep j with hsame | ⟨hj, hnode⟩
  · rw [hsame]
    exact .refl _
  · generalize next.nodes j = later at hnode ⊢
    cases hnode with
    | electionTimeout => exact Raft.handleElectionTimeout_keeps _
    | heartbeatTimeout => exact Raft.handleHeartbeatTimeout_keeps _
    | propose _ cmd => exact Raft.handlePropose_keeps _ cmd
    | appendEntries hget =>
      exact hinv.handleAppendEntries_keeps hj
        (hinv.follows.packet _ (List.mem_of_getElem? hget)) (hallowed _ hget)
    | appendEntriesResponse _ => exact Raft.handleAppendEntriesResponse_keeps _ _ _
    | requestVote _ => exact Raft.handleRequestVote_keeps _ _
    | requestVoteResponse _ => exact Raft.handleRequestVoteResponse_keeps _ _

def threeNodes : Cluster (List UInt8) := Cluster.initial fun _ => ["a", "b", "c"]

theorem threeNodes_init : (system (List UInt8) 3).init threeNodes := ⟨_, fun _ => rfl, rfl⟩

def electFirst : List (Action (List UInt8)) := [.electionTimeout 1, .deliver 0, .deliver 1]

theorem leader_unique (hreach : (system C n).Reachable c) {i j t : ℕ}
    (hi : (i, t) ∈ c.elections) (hj : (j, t) ∈ c.elections) : i = j := by
  obtain ⟨h, hinv⟩ := reachable_invariant False.elim hreach
  have hwon := hinv.follows.elections i t hi
  rw [hinv.follows.elections j t hj, Option.some.injEq] at hwon
  exact hwon.symm

theorem leader_unique_electFirst : ∃ c, (system (List UInt8) 3).Reachable c ∧ (1, 1) ∈ c.elections ∧
      ∀ j, (j, 1) ∈ c.elections → 1 = j := by
  have hrun : ((system (List UInt8) 3).runFrom threeNodes electFirst).map
      Cluster.elections = some [(1, 1)] := by decide
  obtain ⟨c, hreach, helections⟩ := TransitionSystem.exists_reachableBy threeNodes_init hrun
  have hfirst : (1, 1) ∈ c.elections := by simp [helections]
  exact ⟨c, hreach, hfirst, fun j hj => leader_unique hreach hfirst hj⟩

theorem log_matching (hreach : (system C n).Reachable c) :
    (∀ i ∈ members n, ∀ (k : ℕ) (e : LogEntry C),
      (c.nodes i).log.entries[k]? = some e → e.index = k) ∧
    ∀ i ∈ members n, ∀ j ∈ members n, ∀ (k : ℕ) (e₁ e₂ : LogEntry C),
      (c.nodes i).log.entries[k]? = some e₁ →
      (c.nodes j).log.entries[k]? = some e₂ → e₁.term = e₂.term →
      ∀ m ≤ k, (c.nodes i).log.entries[m]? = (c.nodes j).log.entries[m]? := by
  obtain ⟨h, hinv⟩ := reachable_invariant False.elim hreach
  refine ⟨fun i hi => (hinv.follows.node i hi).wellFormed.indexed, ?_⟩
  intro i hi j hj k e₁ e₂ hget₁ hget₂ hterm m hm
  have hfirst := hinv.sound.rooted_log i
  have hsecond := hinv.sound.rooted_log j
  rw [(hinv.follows.node i hi).log] at hfirst
  rw [(hinv.follows.node j hj).log] at hsecond
  have htake := hfirst.take_eq hsecond hget₁ hget₂ hterm
  have hat := congrArg (fun log => log[m]?) htake
  simpa [List.getElem?_take_of_lt (Nat.lt_succ_of_le hm)] using hat

theorem log_matching_replicated : ∃ c, (system (List UInt8) 3).Reachable c ∧
      (c.nodes 2).log.entries.length = 2 ∧
      ∀ m ≤ 1, (c.nodes 1).log.entries[m]? = (c.nodes 2).log.entries[m]? := by
  have hrun : ((system (List UInt8) 3).runFrom threeNodes
      (electFirst ++ [.propose 1 [1], .deliver 1])).map
      (fun c => ((c.nodes 1).log.entries, (c.nodes 2).log.entries)) =
      some ([dummyEntry, ⟨1, 1, [1]⟩], [dummyEntry, ⟨1, 1, [1]⟩]) := by decide
  obtain ⟨c, hreach, hlogs⟩ := TransitionSystem.exists_reachableBy threeNodes_init hrun
  obtain ⟨hfirst, hsecond⟩ := Prod.mk.inj hlogs
  refine ⟨c, hreach, by rw [hsecond]; rfl, ?_⟩
  exact (log_matching hreach).2 1 (by decide) 2 (by decide) 1 ⟨1, 1, [1]⟩
    ⟨1, 1, [1]⟩ (by rw [hfirst]; rfl) (by rw [hsecond]; rfl) rfl

def commitFirst : List (Action (List UInt8)) :=
  electFirst ++ [.propose 1 [1], .deliver 1, .deliver 2, .heartbeatTimeout 1]

def commitBeforeFirstRequest : List (Action (List UInt8)) :=
  electFirst ++ [.propose 1 [1], .propose 1 [2], .deliver 3, .deliver 4]

def cutAndElectSecond : List (Action (List UInt8)) :=
  [.deliver 1, .deliver 1, .electionTimeout 2, .deliver 5, .deliver 5,
    .propose 2 [3], .deliver 6, .deliver 6]

def commitAtSecond : List (Action (List UInt8)) := [.heartbeatTimeout 1, .deliver 4]

theorem applied_commands_agree (hreach : (system C n).ReachableBy Cluster.NoStaleAppend c)
    {i j : ℕ} {first second : ApplyMsg C} (hi : (i, first) ∈ c.applied)
    (hj : (j, second) ∈ c.applied) (hindex : first.index = second.index) :
    first.command = second.command := by
  obtain ⟨h, hinv⟩ := reachable_invariant (fun (_ : True) _ _ hallowed => hallowed) hreach
  have hcommits := hinv.commits trivial
  obtain ⟨hpos, limit, log, e, hsettled, hget, hcmd⟩ := hcommits.message i first hi
  obtain ⟨_, limit', log', e', hsettled', hget', hcmd'⟩ := hcommits.message j second hj
  rw [hindex] at hpos hget
  have heq := hcommits.complete.settled_agree hinv.sound hsettled hsettled' hpos hget hget'
  rw [← hcmd, ← hcmd', heq]

theorem applied_commands_agree_commitFirst :
    ∃ c, (system (List UInt8) 3).ReachableBy Cluster.NoStaleAppend c ∧
      ∃ first second, (1, first) ∈ c.applied ∧ (2, second) ∈ c.applied ∧
        first.index = second.index ∧ first.command = second.command := by
  have hrun : ((system (List UInt8) 3).runBy Cluster.NoStaleAppend threeNodes
      (commitFirst ++ [.deliver 2])).map Cluster.applied =
      some [(1, ⟨1, [1]⟩), (2, ⟨1, [1]⟩)] := by decide
  obtain ⟨c, hreach, happlied⟩ := TransitionSystem.exists_reachableBy threeNodes_init hrun
  have hfirst : (1, ⟨1, [1]⟩) ∈ c.applied := by simp [happlied]
  have hsecond : (2, ⟨1, [1]⟩) ∈ c.applied := by simp [happlied]
  exact ⟨c, hreach, _, _, hfirst, hsecond, rfl, applied_commands_agree hreach hfirst hsecond rfl⟩

theorem delayed_append_splits_applied : ∃ c, (system (List UInt8) 3).Reachable c ∧
      ∃ first second, (1, first) ∈ c.applied ∧ (2, second) ∈ c.applied ∧
        first.index = second.index ∧ first.command ≠ second.command := by
  have hrun : ((system (List UInt8) 3).runFrom threeNodes
      (commitBeforeFirstRequest ++ cutAndElectSecond)).map
      Cluster.applied = some [(1, ⟨1, [1]⟩), (1, ⟨2, [2]⟩), (2, ⟨1, [1]⟩), (2, ⟨2, [3]⟩)] := by
    decide +kernel
  obtain ⟨c, hreach, happlied⟩ := TransitionSystem.exists_reachableBy threeNodes_init hrun
  exact ⟨c, hreach, ⟨2, [2]⟩, ⟨2, [3]⟩, by simp [happlied],
    by simp [happlied], rfl, by decide⟩

theorem committed_kept (hreach : (system C n).ReachableBy Cluster.NoStaleAppend c)
    {a : Action C} {next : Cluster C} (hallowed : c.NoStaleAppend a)
    (hstep : (system C n).step c a = some next) {i : ℕ} (hi : i ∈ members n) :
    (c.nodes i).commitIndex ≤ (next.nodes i).commitIndex ∧
      (next.nodes i).lastApplied ≤ (next.nodes i).commitIndex ∧
      (next.nodes i).commitIndex ≤ (next.nodes i).log.last.1 ∧
      ∀ k, 1 ≤ k → k ≤ (c.nodes i).commitIndex →
        (next.nodes i).log.get k = (c.nodes i).log.get k := by
  obtain ⟨h, hinv⟩ := reachable_invariant (fun (_ : True) _ _ hallowed => hallowed) hreach
  obtain ⟨later, hlater⟩ := hinv.step (fun _ => hallowed) hstep
  have hkeeps := hinv.step_keeps hallowed hstep i
  have hold := (hinv.commits trivial).node i hi
  have hnew := (hlater.commits trivial).node i hi
  obtain ⟨last, _, hpair, hindex⟩ := (hlater.follows.node i hi).wellFormed.last
  have hlt := hold.commit_lt
  have hltNew := hnew.commit_lt
  refine ⟨hkeeps.commit, hnew.applied_le, ?_, ?_⟩
  · rw [hpair]
    dsimp only
    omega
  · intro k hk hle
    have hsome : (c.nodes i).log.entries[k]? =
        some ((c.nodes i).log.entries[k]) := List.getElem?_eq_getElem (by omega)
    have hkept : (next.nodes i).log.entries[k]? = some ((c.nodes i).log.entries[k]) := by
      refine getElem?_prefix_mono hkeeps.entries ?_
      rw [List.getElem?_take_of_lt (by omega), hsome]
    rw [Log.get_eq_some_iff.mpr ⟨hk, hsome⟩, Log.get_eq_some_iff.mpr ⟨hk, hkept⟩]

theorem committed_kept_commitFirst :
    ∃ c next, (system (List UInt8) 3).ReachableBy Cluster.NoStaleAppend c ∧
      (system (List UInt8) 3).step c (.deliver 2) = some next ∧
      (c.nodes 1).commitIndex = 1 ∧
      (next.nodes 1).log.get 1 = (c.nodes 1).log.get 1 := by
  have hrun : ((system (List UInt8) 3).runBy Cluster.NoStaleAppend threeNodes
      commitFirst).map (fun c => ((c.nodes 1).commitIndex,
        decide (c.NoStaleAppend (.deliver 2)),
        ((system (List UInt8) 3).step c (.deliver 2)).isSome)) =
      some (1, true, true) := by
    decide +kernel
  obtain ⟨c, hreach, hfinal⟩ := TransitionSystem.exists_reachableBy threeNodes_init hrun
  simp only [Prod.mk.injEq, decide_eq_true_eq, Option.isSome_iff_exists] at hfinal
  obtain ⟨hcommit, hallowed, next, hstep⟩ := hfinal
  refine ⟨c, next, hreach, hstep, hcommit, ?_⟩
  exact (committed_kept hreach hallowed hstep (i := 1) (by decide)).2.2.2 1 le_rfl hcommit.ge

theorem delayed_append_cuts_committed : ∃ c next, (system (List UInt8) 3).Reachable c ∧
      (system (List UInt8) 3).step c (.deliver 1) = some next ∧
      (c.nodes 2).commitIndex = 2 ∧ (next.nodes 2).commitIndex = 2 ∧
      (c.nodes 2).log.get 2 = some ⟨2, 1, [2]⟩ ∧
      (next.nodes 2).log.get 2 = none ∧ (next.nodes 2).log.last.1 = 1 := by
  have hrun : ((system (List UInt8) 3).runFrom threeNodes
      (commitBeforeFirstRequest ++ commitAtSecond)).map
      (fun c => ((c.nodes 2).commitIndex, (c.nodes 2).log.get 2,
        ((system (List UInt8) 3).step c (.deliver 1)).map fun next =>
          ((next.nodes 2).commitIndex, (next.nodes 2).log.get 2, (next.nodes 2).log.last.1))) =
      some (2, some ⟨2, 1, [2]⟩, some (2, none, 1)) := by rfl
  obtain ⟨c, hreach, hfinal⟩ := TransitionSystem.exists_reachableBy threeNodes_init hrun
  simp only [Prod.mk.injEq, Option.map_eq_some_iff] at hfinal
  obtain ⟨hcommit, hget, next, hstep, hcommitNext, hgetNext, hlast⟩ := hfinal
  exact ⟨c, next, hreach, hstep, hcommit, hcommitNext, hget, hgetNext, hlast⟩

end MCache.Consensus

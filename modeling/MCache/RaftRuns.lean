import MCache.RaftDelivery

/-!
# Two states of one run

A history only grows, so what it says of an early state it still says of a
later one: votes and leader logs stand, and what a node has committed stays
with a majority and with every leader of a later term.
-/

namespace MCache.Consensus

open History

variable {C : Type} [Inhabited C] {n i j : ℕ} {safe : Prop} {c later : Cluster C}
variable {allowed : Cluster C → Action C → Prop}

structure Continues (n : ℕ) (allowed : Cluster C → Action C → Prop)
    (c later : Cluster C) : Prop where
  start : (system C n).ReachableBy allowed c
  rest : ((system C n).startingIn c).ReachableBy allowed later

theorem Continues.exists_extends (hrun : Continues n allowed c later)
    (hsafe : safe → ∀ s a, allowed s a → s.NoStaleAppend a) :
    ∃ h h', Invariant safe n c h ∧ h.Extends h' ∧ Invariant safe n later h' := by
  obtain ⟨h, hinv⟩ := reachable_invariant hsafe hrun.start
  obtain ⟨h', hlater⟩ := hrun.rest.invariant (fun s => ∃ h', h.Extends h' ∧ Invariant safe n s h')
    (fun s hs => ⟨h, .refl h, by rw [hs]; exact hinv⟩)
    (fun s a next ⟨h', hext, hinv⟩ hallowed hstep => by
      obtain ⟨h'', hext', hnext⟩ := hinv.step_extends (fun hs => hsafe hs s a hallowed) hstep
      exact ⟨h'', hext.trans hext', hnext⟩)
  exact ⟨h, h', hinv, hlater⟩

theorem Continues.unrestricted (hrun : Continues n allowed c later) :
    Continues n (fun _ _ => True) c later :=
  ⟨hrun.start.reachable, hrun.rest.reachable⟩

theorem exists_electSecond :
    ∃ c later : Cluster (List UInt8), Continues 3 Cluster.NoStaleAppend c later ∧
      ((c.nodes 1).commitIndex = 1 ∧ (c.nodes 1).currentTerm = 1 ∧
        (c.nodes 1).state = .leader ∧ (c.nodes 1).votedFor = 1) ∧
      (later.nodes 1).currentTerm = 1 ∧ (later.nodes 2).currentTerm = 2 ∧
      (later.nodes 2).state = .leader := by
  have hrun : ((system _ 3).runBy Cluster.NoStaleAppend threeNodes
      commitFirst).bind (fun c => (((system _ 3).startingIn c).runBy
        Cluster.NoStaleAppend c [.electionTimeout 2, .deliver 5, .deliver 5]).map
          fun later => (((c.nodes 1).commitIndex, (c.nodes 1).currentTerm,
            (c.nodes 1).state, (c.nodes 1).votedFor), (later.nodes 1).currentTerm,
            (later.nodes 2).currentTerm, (later.nodes 2).state)) =
      some ((1, 1, .leader, 1), 1, 2, .leader) := by
    decide +kernel
  obtain ⟨c, hc, hlater⟩ := Option.bind_eq_some_iff.mp hrun
  obtain ⟨later, hlater, hfinal⟩ := Option.map_eq_some_iff.mp hlater
  simp only [Prod.mk.injEq] at hfinal
  exact ⟨c, later, ⟨.runBy (.init threeNodes_init) hc, .runBy (.init rfl) hlater⟩, hfinal⟩

theorem vote_stands (hrun : Continues n (fun _ _ => True) c later) (hi : i ∈ members n) :
    (c.nodes i).currentTerm ≤ (later.nodes i).currentTerm ∧
      ((later.nodes i).currentTerm = (c.nodes i).currentTerm → (c.nodes i).votedFor ≠ 0 →
          (later.nodes i).votedFor = (c.nodes i).votedFor) := by
  obtain ⟨h, h', hinv, hext, hinv'⟩ := hrun.exists_extends False.elim
  have hnode := hinv.follows.node i hi
  have hnode' := hinv'.follows.node i hi
  constructor
  · rw [← hnode.cur, ← hnode'.cur]
    exact hext.cur i
  · intro hterm hvoted
    have hvote := hnode.vote
    rw [if_neg hvoted] at hvote
    have hkept := hnode'.vote
    rw [hterm, hext.vote _ _ _ hvote] at hkept
    split at hkept
    · cases hkept
    · exact (Option.some.inj hkept).symm

theorem vote_stands_electSecond :
    ∃ c later : Cluster (List UInt8), Continues 3 (fun _ _ => True) c later ∧
      (c.nodes 1).votedFor = 1 ∧ (later.nodes 1).votedFor = 1 := by
  obtain ⟨c, later, hrun, ⟨_, hterm, _, hvoted⟩, hsame, _⟩ := exists_electSecond
  have hstands := (vote_stands hrun.unrestricted (i := 1) (by decide)).2 (by omega) (by omega)
  exact ⟨c, later, hrun.unrestricted, hvoted, by omega⟩

theorem leader_appends (hrun : Continues n (fun _ _ => True) c later)
    (hi : i ∈ members n) (hleader : (c.nodes i).state = .leader)
    (hterm : (later.nodes i).currentTerm = (c.nodes i).currentTerm) :
    (c.nodes i).log.entries <+: (later.nodes i).log.entries := by
  obtain ⟨h, h', hinv, hext, hinv'⟩ := hrun.exists_extends False.elim
  have hnode := hinv.follows.node i hi
  have hnode' := hinv'.follows.node i hi
  have hwon := hnode.leader.mp hleader
  have hleader' := hnode'.leader.mpr (hterm ▸ hext.won _ _ hwon)
  rw [← hnode.leaderLog_eq hinv.sound hleader, ← hnode'.leaderLog_eq hinv'.sound hleader', hterm]
  exact hext.leaderLog _ _ hwon

theorem leader_appends_electSecond :
    ∃ c later : Cluster (List UInt8), Continues 3 (fun _ _ => True) c later ∧
      (c.nodes 1).log.entries <+: (later.nodes 1).log.entries := by
  obtain ⟨c, later, hrun, ⟨_, hterm, hleader, _⟩, hsame, _⟩ := exists_electSecond
  exact ⟨c, later, hrun.unrestricted,
    leader_appends hrun.unrestricted (by decide) hleader (by omega)⟩

def Raft.committed (r : Raft C) : List (LogEntry C) := r.log.entries.take (r.commitIndex + 1)

theorem Continues.exists_chosen (hrun : Continues n Cluster.NoStaleAppend c later)
    (hi : i ∈ members n) :
    ∃ h, Invariant True n later h ∧
      ((∀ j ∈ members n, (c.nodes i).committed <+: (later.nodes j).log.entries) ∨
        ∃ t k, t ≤ (c.nodes i).currentTerm ∧ Chosen (members n) h t k ∧
          (c.nodes i).committed <+: h.upTo t k) := by
  obtain ⟨h, h', hinv, hext, hinv'⟩ := hrun.exists_extends (fun (_ : True) _ _ hallowed => hallowed)
  have hcommits := (hinv.commits trivial).node i hi
  refine ⟨h', hinv', (hext.settled hinv.sound hcommits.settled le_rfl).imp_left ?_⟩
  intro hshort j hj
  have hzero : (c.nodes i).commitIndex = 0 := by
    have hlt := hcommits.commit_lt
    rw [List.length_take] at hshort
    omega
  rw [Raft.committed, hzero, (hinv.follows.node i hi).wellFormed.take_one,
    ← (hinv'.follows.node j hj).wellFormed.take_one]
  exact List.take_prefix _ _

theorem leader_complete (hrun : Continues n Cluster.NoStaleAppend c later)
    (hi : i ∈ members n) (hj : j ∈ members n)
    (hleader : (later.nodes j).state = .leader)
    (hterm : (c.nodes i).currentTerm ≤ (later.nodes j).currentTerm) :
    (c.nodes i).committed <+: (later.nodes j).log.entries := by
  obtain ⟨h, hinv, hroot | ⟨t, k, hle, hchosen, hpre⟩⟩ := hrun.exists_chosen hi
  · exact hroot j hj
  · have hnode := hinv.follows.node j hj
    rw [← hnode.leaderLog_eq hinv.sound hleader]
    exact hpre.trans ((hinv.commits trivial).complete.upTo_prefix hchosen
      (hle.trans hterm) (hnode.leader.mp hleader))

theorem leader_complete_electSecond :
    ∃ c later : Cluster (List UInt8), Continues 3 Cluster.NoStaleAppend c later ∧
      (c.nodes 1).commitIndex = 1 ∧
      (c.nodes 1).committed <+: (later.nodes 2).log.entries := by
  obtain ⟨c, later, hrun, ⟨hcommit, hterm, _⟩, _, hlater, hleader⟩ := exists_electSecond
  exact ⟨c, later, hrun, hcommit, leader_complete hrun (by decide) (by decide) hleader (by omega)⟩

theorem committed_majority (hrun : Continues n Cluster.NoStaleAppend c later) (hi : i ∈ members n) :
    ∃ quorum, IsMajority (members n) quorum ∧
      ∀ j ∈ quorum, (c.nodes i).committed <+: (later.nodes j).log.entries := by
  obtain ⟨h, hinv, hroot | ⟨t, k, _, hchosen, hpre⟩⟩ := hrun.exists_chosen hi
  · have hpos := Finset.card_pos.mpr ⟨i, hi⟩
    exact ⟨members n, ⟨subset_rfl, by omega⟩, hroot⟩
  · have hcomplete := (hinv.commits trivial).complete
    obtain ⟨quorum, hquorum, hacked⟩ := hchosen.2
    refine ⟨quorum, hquorum, fun j hj => hpre.trans ?_⟩
    rw [← (hinv.follows.node j (hquorum.1 hj)).log]
    refine (hcomplete.kept j t k hchosen.1 (hacked j hj)).resolve_right ?_
    rintro ⟨s, w, hlt, _, hwon, hlost⟩
    exact hlost (hcomplete.upTo_prefix hchosen hlt.le hwon)

theorem committed_majority_electSecond :
    ∃ c later : Cluster (List UInt8), (c.nodes 1).commitIndex = 1 ∧
      ∃ quorum, IsMajority (members 3) quorum ∧
        ∀ j ∈ quorum, (c.nodes 1).committed <+: (later.nodes j).log.entries := by
  obtain ⟨c, later, hrun, ⟨hcommit, _⟩, _⟩ := exists_electSecond
  exact ⟨c, later, hcommit, committed_majority hrun (by decide)⟩

omit [Inhabited C] in
theorem Cluster.InOrder.mem_applied (hc : c.InOrder) {k : ℕ} {msg : ApplyMsg C}
    (hget : (c.emitted i)[k]? = some msg) :
    (i, msg) ∈ c.applied ∧ msg.index = k + 1 := by
  obtain ⟨record, hmem, hsent⟩ := List.mem_filterMap.mp (List.mem_of_getElem? hget)
  have hindex := congrArg (fun indices => indices[k]?) (hc.indices i)
  simp only [List.getElem?_map, hget, Option.map_some] at hindex
  obtain ⟨_, hvalue⟩ := List.getElem?_eq_some_iff.mp hindex.symm
  rw [List.getElem_range'] at hvalue
  split at hsent
  · rename_i hi
    cases hsent
    exact ⟨hi ▸ hmem, by omega⟩
  · cases hsent

theorem emitted_agree (hreach : (system C n).ReachableBy Cluster.NoStaleAppend c)
    {k : ℕ} {first second : ApplyMsg C} (hfirst : (c.emitted i)[k]? = some first)
    (hsecond : (c.emitted j)[k]? = some second) : second = first := by
  obtain ⟨h, hinv⟩ := reachable_invariant (fun (_ : True) _ _ hallowed => hallowed) hreach
  have hcommits := hinv.commits trivial
  have horder := reachable_inOrder hreach.reachable
  obtain ⟨hmem, hindex⟩ := horder.mem_applied hfirst
  obtain ⟨hmem', hindex'⟩ := horder.mem_applied hsecond
  obtain ⟨hpos, _, _, e, hlog, hget, hcmd⟩ := hcommits.message i first hmem
  obtain ⟨_, _, _, e', hlog', hget', hcmd'⟩ := hcommits.message j second hmem'
  rw [hindex] at hpos hget
  rw [hindex'] at hget'
  have heq := hcommits.complete.settled_agree hinv.sound hlog hlog' hpos hget hget'
  cases first
  cases second
  simp_all

theorem emitted_prefix (hreach : (system C n).ReachableBy Cluster.NoStaleAppend c)
    (hlength : (c.emitted i).length ≤ (c.emitted j).length) :
    c.emitted i <+: c.emitted j := by
  rw [List.prefix_iff_getElem?]
  intro k hk
  rw [List.getElem?_eq_getElem (by omega)]
  exact congrArg some (emitted_agree hreach (List.getElem?_eq_getElem hk)
    (List.getElem?_eq_getElem _))

end MCache.Consensus

import MCache.GoValues
import Mathlib.Data.List.Nodup

/-!
# Failover of the master

`checkAndFailover` and `tryFailover` of `cluster/sentinel_mode.go` and
`cluster/master_slave_mode.go`, which differ only in what they log.  Nodes are
pointers: `N` is the type of node identities.  Instants are nanoseconds since
the zero time of the time package, so that the zero value of
`firstUnhealthyAt` is 0.
-/

namespace MCache.Failover

variable {N : Type}

section Calls

variable [DecidableEq N]

structure Options (N : Type) where
  addr : N → String
  connected : N → Bool
  failoverTimeout : ℤ

structure Wording where
  mode : String
  replica : String

structure Topology (N : Type) where
  master : Option N
  replicas : List N
  healthy : N → Bool
  firstUnhealthyAt : ℤ
  log : List String

structure Round (N : Type) where
  answers : N → Bool
  now : ℤ

def probeNodeHealth (opts : Options N) (round : Round N) (node : N) : Bool :=
  opts.connected node && round.answers node

namespace Topology

def logf (t : Topology N) (line : String) : Topology N :=
  { t with log := t.log ++ [line] }

def storeHealth (t : Topology N) (node : N) (healthy : Bool) : Topology N :=
  { t with healthy := Function.update t.healthy node healthy }

def probeReplicas (t : Topology N) (opts : Options N) (round : Round N) : Topology N :=
  t.replicas.foldl (fun t node => t.storeHealth node (probeNodeHealth opts round node)) t

def best? (t : Topology N) (opts : Options N) : Option N := t.replicas.find? fun node =>
    decide (some node ≠ t.master) && (opts.connected node && t.healthy node)

def promote (t : Topology N) (w : Wording) (opts : Options N) (best : N) : Topology N :=
  let old := t.master
  let t := { t with
    master := some best
    firstUnhealthyAt := 0
    replicas := t.replicas.erase best }
  match old with
  | none => t
  | some old =>
    { t.storeHealth old false with replicas := t.replicas ++ [old] }.logf
      (w.mode ++ ": promoted " ++ opts.addr best ++
        " to master (old master " ++ opts.addr old ++ " demoted to " ++
        w.replica ++ ")")

def tryFailover (t : Topology N) (w : Wording) (opts : Options N) : Topology N :=
  if (t.master.map t.healthy).getD false then t
  else
    match t.best? opts with
    | none =>
      t.logf (w.mode ++ ": failover failed, no healthy " ++ w.replica ++ " found")
    | some best => t.promote w opts best

def masterUnhealthy (t : Topology N) (w : Wording) (opts : Options N) (now : ℤ) : Topology N :=
  if t.firstUnhealthyAt = 0 then { t with firstUnhealthyAt := now }
  else if opts.failoverTimeout ≤ saturated (now - t.firstUnhealthyAt) then
    t.tryFailover w opts
  else t

def checkAndFailover (w : Wording) (opts : Options N) (t : Topology N)
    (round : Round N) : Topology N :=
  let t := t.probeReplicas opts round
  match t.master with
  | none => t.tryFailover w opts
  | some m =>
    if opts.connected m then
      let healthy := probeNodeHealth opts round m
      let t := t.storeHealth m healthy
      if healthy then { t with firstUnhealthyAt := 0 }
      else
        (t.logf (w.mode ++ ": master " ++ opts.addr m ++
          " unhealthy")).masterUnhealthy w opts round.now
    else t.tryFailover w opts

def start (master : N) (replicas : List N) : Topology N where
  master := some master
  replicas := replicas
  healthy := fun _ => true
  firstUnhealthyAt := 0
  log := []

def members (t : Topology N) : List N := t.master.toList ++ t.replicas

end Topology

def SentinelMode.checkAndFailover (opts : Options N) : Topology N → Round N → Topology N :=
  Topology.checkAndFailover ⟨"sentinel", "replica"⟩ opts

def MasterSlaveMode.checkAndFailover (opts : Options N) : Topology N → Round N → Topology N :=
  Topology.checkAndFailover ⟨"master-slave", "slave"⟩ opts

inductive Mode where
  | sentinel
  | masterSlave

def Mode.checkAndFailover (mode : Mode) (opts : Options N) : Topology N → Round N → Topology N :=
  match mode with
  | .sentinel => SentinelMode.checkAndFailover opts
  | .masterSlave => MasterSlaveMode.checkAndFailover opts

def Mode.run (mode : Mode) (opts : Options N) (t : Topology N)
    (rounds : List (Round N)) : Topology N :=
  rounds.foldl (mode.checkAndFailover opts) t

namespace Topology

variable {w : Wording} {opts : Options N} {round : Round N} {t : Topology N}

private theorem foldl_storeHealth_frame (nodes : List N) (t : Topology N) :
    let next := nodes.foldl (fun t node => t.storeHealth node (probeNodeHealth opts round node)) t
    next.master = t.master ∧ next.replicas = t.replicas ∧
      next.firstUnhealthyAt = t.firstUnhealthyAt := by
  induction nodes generalizing t with
  | nil => exact ⟨rfl, rfl, rfl⟩
  | cons node rest ih => exact ih (t.storeHealth node _)

theorem probeReplicas_frame (t : Topology N) (opts : Options N) (round : Round N) :
    (t.probeReplicas opts round).master = t.master ∧
      (t.probeReplicas opts round).replicas = t.replicas ∧
      (t.probeReplicas opts round).firstUnhealthyAt = t.firstUnhealthyAt :=
  foldl_storeHealth_frame t.replicas t

private theorem foldl_storeHealth (nodes : List N) (t : Topology N) (node : N) : (nodes.foldl
        (fun t node => t.storeHealth node (probeNodeHealth opts round node))
        t).healthy node =
      if node ∈ nodes then probeNodeHealth opts round node
      else t.healthy node := by
  induction nodes generalizing t with
  | nil => rfl
  | cons head rest ih =>
    simp only [List.foldl_cons, ih, List.mem_cons]
    by_cases hrest : node ∈ rest
    · simp [hrest]
    · by_cases hhead : node = head
      · subst hhead
        simp [hrest, storeHealth]
      · simp [hrest, hhead, storeHealth]

theorem probeReplicas_healthy {node : N} (hnode : node ∈ t.replicas) :
    (t.probeReplicas opts round).healthy node = probeNodeHealth opts round node := by
  unfold probeReplicas
  rw [foldl_storeHealth, if_pos hnode]

theorem best?_eq_some {best : N} (h : t.best? opts = some best) :
    best ∈ t.replicas ∧ t.master ≠ some best ∧ t.healthy best = true := by
  unfold best? at h
  have hprop := List.find?_some h
  simp only [ne_eq, decide_not, Bool.and_eq_true, Bool.not_eq_true',
    decide_eq_false_iff_not] at hprop
  exact ⟨List.mem_of_find?_eq_some h, fun heq => hprop.1 heq.symm, hprop.2.2⟩

inductive Outcome (t : Topology N) (opts : Options N) (round : Round N)
    (next : Topology N) (m : N) : Prop
  | answered (hmaster : next.master = t.master) (hreplicas : next.replicas = t.replicas)
      (hfirst : next.firstUnhealthyAt = 0)
  | began (hfailed : probeNodeHealth opts round m = false) (hmaster : next.master = t.master)
      (hreplicas : next.replicas = t.replicas)
      (hfirst : next.firstUnhealthyAt = round.now)
  | continued (hfailed : probeNodeHealth opts round m = false) (hmaster : next.master = t.master)
      (hreplicas : next.replicas = t.replicas)
      (hfirst : next.firstUnhealthyAt = t.firstUnhealthyAt)
  | promoted (best : N) (hfailed : probeNodeHealth opts round m = false)
      (hstreak : t.firstUnhealthyAt ≠ 0)
      (hdue : opts.failoverTimeout ≤ saturated (round.now - t.firstUnhealthyAt))
      (hbest : best ∈ t.replicas)
      (hanswered : probeNodeHealth opts round best = true)
      (hmaster : next.master = some best)
      (hreplicas : next.replicas = t.replicas.erase best ++ [m])
      (hfirst : next.firstUnhealthyAt = 0)

theorem checkAndFailover_outcome {m : N} (hmaster : t.master = some m)
    (hconnected : opts.connected m = true) :
    t.Outcome opts round (t.checkAndFailover w opts round) m := by
  obtain ⟨hkeptMaster, hkeptReplicas, hkeptFirst⟩ := probeReplicas_frame t opts round
  unfold checkAndFailover
  simp only [hkeptMaster, hmaster, hconnected, if_true]
  by_cases hprobe : probeNodeHealth opts round m = true
  · rw [if_pos hprobe]
    exact .answered (by simp [storeHealth, hkeptMaster, hmaster])
      (by simp [storeHealth, hkeptReplicas]) rfl
  · rw [if_neg hprobe]
    have hfailed := Bool.eq_false_of_not_eq_true hprobe
    unfold masterUnhealthy
    split_ifs with hfirst hdue
    case pos =>
      exact .began hfailed (by simp [logf, storeHealth, hkeptMaster])
        (by simp [logf, storeHealth, hkeptReplicas]) rfl
    case neg =>
      exact .continued hfailed (by simp [logf, storeHealth, hkeptMaster])
        (by simp [logf, storeHealth, hkeptReplicas])
        (by simp [logf, storeHealth, hkeptFirst])
    case pos =>
      simp only [logf, storeHealth, hkeptFirst] at hfirst hdue
      unfold tryFailover
      rw [if_neg (by simp [logf, storeHealth, hkeptMaster, hmaster, hprobe])]
      split
      case h_1 =>
        exact .continued hfailed (by simp [logf, storeHealth, hkeptMaster])
          (by simp [logf, storeHealth, hkeptReplicas])
          (by simp [logf, storeHealth, hkeptFirst])
      case h_2 best hbest =>
        obtain ⟨hmem, hother, hhealthy⟩ := best?_eq_some hbest
        simp only [logf, storeHealth, hkeptReplicas, hkeptMaster, hmaster] at hmem hother hhealthy
        have hne : best ≠ m := fun heq => hother (by rw [heq])
        rw [Function.update_of_ne hne, probeReplicas_healthy hmem] at hhealthy
        refine .promoted best hfailed hfirst hdue hmem hhealthy ?_ ?_ ?_
        · simp [promote, logf, storeHealth, hkeptMaster, hmaster]
        · simp [promote, logf, storeHealth, hkeptMaster, hkeptReplicas, hmaster]
        · simp [promote, logf, storeHealth, hkeptMaster, hmaster]

end Topology

end Calls

def FailingSince (opts : Options N) (rounds : List (Round N)) (node : N) (since : ℤ) : Prop :=
  ∃ earlier first later, rounds = earlier ++ first :: later ∧
    first.now = since ∧
    ∀ round ∈ first :: later, probeNodeHealth opts round node = false

theorem FailingSince.append {opts : Options N} {rounds : List (Round N)}
    {node : N} {since : ℤ} {round : Round N}
    (h : FailingSince opts rounds node since)
    (hfailed : probeNodeHealth opts round node = false) :
    FailingSince opts (rounds ++ [round]) node since := by
  obtain ⟨earlier, first, later, hrounds, hnow, hall⟩ := h
  refine ⟨earlier, first, later ++ [round], by simp [hrounds], hnow, ?_⟩
  intro r hr
  rw [← List.cons_append, List.mem_append, List.mem_singleton] at hr
  cases hr with
  | inl hold => exact hall r hold
  | inr hlast => exact hlast ▸ hfailed

structure Invariant (opts : Options N) (nodes : List N)
    (rounds : List (Round N)) (t : Topology N) : Prop where
  members : t.members.Perm nodes
  master : ∃ m, t.master = some m
  streak : ∀ m, t.master = some m → t.firstUnhealthyAt ≠ 0 →
    FailingSince opts rounds m t.firstUnhealthyAt

namespace Invariant

variable {opts : Options N} {nodes : List N} {rounds : List (Round N)}
  {t : Topology N}

theorem start (opts : Options N) (master : N) (replicas : List N) :
    Invariant opts (master :: replicas) [] (.start master replicas) where
  members := .rfl
  master := ⟨master, rfl⟩
  streak := fun _ _ hstreak => absurd rfl hstreak

theorem members_master (hinv : Invariant opts nodes rounds t) {m : N}
    (hmaster : t.master = some m) : (m :: t.replicas).Perm nodes := by
  simpa [Topology.members, hmaster] using hinv.members

theorem master_mem (hinv : Invariant opts nodes rounds t) {m : N}
    (hmaster : t.master = some m) : m ∈ nodes :=
  (hinv.members_master hmaster).subset List.mem_cons_self

theorem master_not_mem (hinv : Invariant opts nodes rounds t)
    (hdistinct : nodes.Nodup) {m : N} (hmaster : t.master = some m) :
    m ∉ t.replicas :=
  (List.nodup_cons.mp ((hinv.members_master hmaster).nodup_iff.mpr hdistinct)).1

variable [DecidableEq N]

private theorem promoted_perm {best m : N} {replicas : List N} (hbest : best ∈ replicas) :
    (best :: (replicas.erase best ++ [m])).Perm (m :: replicas) := by
  have hmoved : (best :: (replicas.erase best ++ [m])).Perm (m :: best :: replicas.erase best) :=
    List.perm_append_singleton m (best :: replicas.erase best)
  exact hmoved.trans ((List.perm_cons_erase hbest).symm.cons m)

theorem next (hinv : Invariant opts nodes rounds t)
    (hconnected : ∀ node ∈ nodes, opts.connected node = true) (w : Wording)
    (round : Round N) :
    Invariant opts nodes (rounds ++ [round]) (t.checkAndFailover w opts round) := by
  obtain ⟨m, hm⟩ := hinv.master
  have hnodes := hinv.members_master hm
  have houtcome : t.Outcome opts round (t.checkAndFailover w opts round) m :=
    Topology.checkAndFailover_outcome hm (hconnected m (hinv.master_mem hm))
  generalize t.checkAndFailover w opts round = next at houtcome
  cases houtcome with
  | answered hmaster hreplicas hfirst =>
    refine ⟨?_, ⟨m, hmaster.trans hm⟩, fun _ _ hne => absurd hfirst hne⟩
    simpa [Topology.members, hmaster, hreplicas, hm] using hnodes
  | began hfailed hmaster hreplicas hfirst =>
    refine ⟨?_, ⟨m, hmaster.trans hm⟩, ?_⟩
    · simpa [Topology.members, hmaster, hreplicas, hm] using hnodes
    · intro m' hm' _
      obtain rfl : m = m' := Option.some.inj (hm.symm.trans (hmaster ▸ hm'))
      exact ⟨rounds, round, [], rfl, hfirst.symm, by simpa using hfailed⟩
  | continued hfailed hmaster hreplicas hfirst =>
    refine ⟨?_, ⟨m, hmaster.trans hm⟩, ?_⟩
    · simpa [Topology.members, hmaster, hreplicas, hm] using hnodes
    · intro m' hm' hne
      obtain rfl : m = m' := Option.some.inj (hm.symm.trans (hmaster ▸ hm'))
      rw [hfirst] at hne ⊢
      exact (hinv.streak m hm hne).append hfailed
  | promoted best _ _ _ hbest _ hmaster hreplicas hfirst =>
    refine ⟨?_, ⟨best, hmaster⟩, fun _ _ hne => absurd hfirst hne⟩
    simpa [Topology.members, hmaster, hreplicas] using (promoted_perm hbest).trans hnodes

theorem replaced (hinv : Invariant opts nodes rounds t)
    (hconnected : ∀ node ∈ nodes, opts.connected node = true) {w : Wording}
    {round : Round N} {old : N} (hold : t.master = some old)
    (hreplaced : (t.checkAndFailover w opts round).master ≠ some old)
    (hclock : ∀ earlier ∈ rounds, earlier.now ≤ round.now) :
    ∃ best since, (t.checkAndFailover w opts round).master = some best ∧
      best ∈ t.replicas ∧ probeNodeHealth opts round best = true ∧
      FailingSince opts rounds old since ∧
      probeNodeHealth opts round old = false ∧
      since + opts.failoverTimeout ≤ round.now := by
  have houtcome : t.Outcome opts round (t.checkAndFailover w opts round) old :=
    Topology.checkAndFailover_outcome hold (hconnected old (hinv.master_mem hold))
  generalize t.checkAndFailover w opts round = next at houtcome hreplaced
  cases houtcome with
  | answered hmaster => exact absurd (hmaster.trans hold) hreplaced
  | began _ hmaster => exact absurd (hmaster.trans hold) hreplaced
  | continued _ hmaster => exact absurd (hmaster.trans hold) hreplaced
  | promoted best hfailed hstreak hdue hbest hanswered hmaster =>
    have hsince := hinv.streak old hold hstreak
    refine ⟨best, t.firstUnhealthyAt, hmaster, hbest, hanswered, hsince, hfailed, ?_⟩
    obtain ⟨earlier, first, later, hrounds, hnow, -⟩ := hsince
    have hle := hclock first (by simp [hrounds])
    unfold saturated at hdue
    omega

end Invariant

theorem Mode.checkAndFailover_eq [DecidableEq N] (mode : Mode)
    (opts : Options N) : ∃ w : Wording, mode.checkAndFailover opts =
      fun t round => t.checkAndFailover w opts round := by
  cases mode with
  | sentinel => exact ⟨_, rfl⟩
  | masterSlave => exact ⟨_, rfl⟩

theorem Mode.run_invariant [DecidableEq N] (mode : Mode) {opts : Options N}
    {master : N} {replicas : List N}
    (hconnected : ∀ node ∈ master :: replicas, opts.connected node = true)
    (rounds : List (Round N)) :
    Invariant opts (master :: replicas) rounds (mode.run opts (.start master replicas) rounds) := by
  obtain ⟨w, hcheck⟩ := mode.checkAndFailover_eq opts
  induction rounds using List.reverseRecOn with
  | nil => exact .start opts master replicas
  | append_singleton rounds round ih =>
    have hnext := ih.next hconnected w round
    simpa [Mode.run, hcheck] using hnext

theorem failover_keeps_nodes_and_waits [DecidableEq N] (mode : Mode)
    (opts : Options N) (master : N) (replicas : List N)
    (hdistinct : (master :: replicas).Nodup)
    (hconnected : ∀ node ∈ master :: replicas, opts.connected node = true)
    (rounds : List (Round N))
    (hclock : rounds.Pairwise fun earlier later => earlier.now ≤ later.now) :
    ((mode.run opts (.start master replicas) rounds).members.Perm (master :: replicas) ∧
      ∃ m, (mode.run opts (.start master replicas) rounds).master = some m ∧
        m ∉ (mode.run opts (.start master replicas) rounds).replicas) ∧
    ∀ before round after, rounds = before ++ round :: after →
      let t := mode.run opts (.start master replicas) before
      ∀ old, t.master = some old → (mode.checkAndFailover opts t round).master ≠ some old →
        ∃ best since, (mode.checkAndFailover opts t round).master = some best ∧
          best ∈ t.replicas ∧ probeNodeHealth opts round best = true ∧
          FailingSince opts before old since ∧
          probeNodeHealth opts round old = false ∧
          since + opts.failoverTimeout ≤ round.now := by
  have hinv := mode.run_invariant hconnected
  refine ⟨⟨(hinv rounds).members, ?_⟩, ?_⟩
  · obtain ⟨m, hm⟩ := (hinv rounds).master
    exact ⟨m, hm, (hinv rounds).master_not_mem hdistinct hm⟩
  · intro before round after hrounds t old hold hreplaced
    have hbefore : ∀ earlier ∈ before, earlier.now ≤ round.now := by
      intro earlier hearlier
      rw [hrounds, List.pairwise_append] at hclock
      exact hclock.2.2 earlier hearlier round List.mem_cons_self
    obtain ⟨w, hcheck⟩ := mode.checkAndFailover_eq opts
    rw [hcheck] at hreplaced ⊢
    exact (hinv before).replaced hconnected hold hreplaced hbefore

def threeNodes : Options ℕ := ⟨fun _ => "", fun _ => true, 10⟩

def firstSilent (now : ℤ) : Round ℕ := ⟨fun node => decide (node ≠ 0), now⟩

theorem failover_after_timeout :
    let t := Mode.sentinel.run threeNodes (.start 0 [1, 2]) [firstSilent 5]
    t.master = some 0 ∧ ∃ best since,
        (Mode.sentinel.checkAndFailover threeNodes t (firstSilent 20)).master = some best ∧
        best ∈ t.replicas ∧
        probeNodeHealth threeNodes (firstSilent 20) best = true ∧
        FailingSince threeNodes [firstSilent 5] 0 since ∧
        probeNodeHealth threeNodes (firstSilent 20) 0 = false ∧
        since + threeNodes.failoverTimeout ≤ (firstSilent 20).now :=
  ⟨rfl, (failover_keeps_nodes_and_waits .sentinel threeNodes 0 [1, 2]
    (by decide) (fun _ _ => rfl) [firstSilent 5, firstSilent 20]
    (by simp [firstSilent])).2 [firstSilent 5] (firstSilent 20) [] rfl 0 rfl
    (by decide)⟩

end MCache.Failover

import MCache.GoSlices
import MCache.WeightedRanges

/-!
# Routing of keys in a sharded cluster

`ShardMode.pickNode` of the cluster package and the clients of the SDKs, each in
the arithmetic of its language: 32-bit words in Go and C++, unbounded integers in
Python.  Nodes and their clients are given by their position.
-/

namespace MCache.Cluster

structure Node where
  weight : ℕ
  healthy : Bool
  weight_pos : 0 < weight

def scanNodes {α : Type} [Add α] [LT α] [DecidableLT α] (number : ℕ → α) (idx : α) :
    List Node → α → ℕ → Option ℕ
  | [], _, _ => none
  | n :: nodes, cursor, pos =>
    if ¬ n.healthy then scanNodes number idx nodes cursor (pos + 1)
    else
      let cursor := cursor + number n.weight
      if idx < cursor then some pos else scanNodes number idx nodes cursor (pos + 1)

def totalWeight (nodes : List Node) : ℕ :=
  nodes.foldl (fun total n => if n.healthy then (total + n.weight) % 2 ^ 64 else total) 0

def pickNode (nodes : List Node) (key : Bytes) : Go (Option ℕ) :=
  let hash := fnv32a key
  if totalWeight nodes = 0 then .ok none
  else if UInt32.ofNat (totalWeight nodes) = 0 then .error .panic
  else .ok (scanNodes UInt32.ofNat (hash % .ofNat (totalWeight nodes)) nodes 0 0)

def pickClusterNode (size : ℕ) (key : Bytes) : Go ℕ :=
  if size = 1 then .ok 0
  else if UInt32.ofNat size = 0 then .error .panic
  else .ok (fnv32a key % .ofNat size).toNat

def pyFnv32a (data : Bytes) : ℕ :=
  data.foldl (fun h b => ((h ^^^ b.toNat) * 0x01000193) &&& 0xFFFFFFFF) 0x811c9dc5

def pyPick (nodes : List Node) (key : Bytes) : Option ℕ :=
  let first := if nodes = [] then none else some 0
  let h := pyFnv32a key
  let total := ((nodes.filter Node.healthy).map Node.weight).sum
  if total = 0 then first
  else (scanNodes id (h % total) nodes 0 0).or first

def fnv1a32 (key : Bytes) : UInt32 :=
  key.foldl (fun hash c => (hash ^^^ c.toUInt32) * 16777619) 2166136261

def cppPickNode (size : ℕ) (key : Bytes) : Option ℕ :=
  if size = 0 then none else some ((fnv1a32 key).toNat % size)

def Node.width (n : Node) : ℕ := if n.healthy then n.weight else 0

theorem Node.width_of_healthy {n : Node} (h : n.healthy) : n.width = n.weight := if_pos h

theorem Node.width_of_unhealthy {n : Node} (h : ¬ n.healthy) : n.width = 0 := if_neg h

def widths (nodes : List Node) : List ℕ := nodes.map Node.width

@[simp] theorem widths_cons (n : Node) (nodes : List Node) :
    widths (n :: nodes) = n.width :: widths nodes := rfl

@[simp] theorem widths_length (nodes : List Node) : (widths nodes).length = nodes.length :=
  List.length_map _

theorem sum_filter_healthy (nodes : List Node) :
    ((nodes.filter Node.healthy).map Node.weight).sum = (widths nodes).sum := by
  induction nodes with
  | nil => rfl
  | cons n nodes ih => by_cases hn : n.healthy <;> simp [Node.width, hn, ih]

theorem totalWeight_eq {nodes : List Node} (hsum : (widths nodes).sum < 2 ^ 64) :
    totalWeight nodes = (widths nodes).sum := by
  have hfold : ∀ (nodes : List Node) (total : ℕ), total + (widths nodes).sum < 2 ^ 64 →
      nodes.foldl (fun total n =>
        if n.healthy then (total + n.weight) % 2 ^ 64 else total) total =
          total + (widths nodes).sum := by
    intro nodes
    induction nodes with
    | nil => simp [widths]
    | cons n nodes ih =>
      intro total htotal
      rw [widths_cons, List.sum_cons] at htotal ⊢
      rw [List.foldl_cons]
      by_cases hn : n.healthy
      · rw [n.width_of_healthy hn] at htotal ⊢
        rw [if_pos hn, Nat.mod_eq_of_lt (by omega), ih _ (by omega), Nat.add_assoc]
      · rw [n.width_of_unhealthy hn, Nat.zero_add] at htotal ⊢
        rw [if_neg hn, ih total htotal]
  unfold totalWeight
  rw [hfold nodes 0 (by rwa [Nat.zero_add]), Nat.zero_add]

theorem scanNodes_id (nodes : List Node) {idx cursor : ℕ} (pos : ℕ) (hcursor : cursor ≤ idx) :
    scanNodes id idx nodes cursor pos = (rangeAt (widths nodes) (idx - cursor)).map (pos + ·) := by
  induction nodes generalizing cursor pos with
  | nil => rfl
  | cons n nodes ih =>
    have hshift : ∀ range : Option ℕ,
        range.map (pos + 1 + ·) = (range.map (· + 1)).map (pos + ·) := by
      intro range
      rw [Option.map_map]
      congr 1
      funext i
      simp only [Function.comp_apply]
      omega
    unfold scanNodes
    rw [widths_cons, rangeAt]
    by_cases hn : n.healthy
    · rw [n.width_of_healthy hn, if_neg (not_not.mpr hn)]
      by_cases hidx : idx < cursor + n.weight
      · simp [hidx, show idx - cursor < n.weight by omega]
      · rw [if_neg (show ¬ idx - cursor < n.weight by omega)]
        simp only [id_eq, if_neg hidx]
        rw [ih _ (by omega), hshift, Nat.sub_add_eq]
    · rw [n.width_of_unhealthy hn, if_pos hn, if_neg (Nat.not_lt_zero _), ih _ hcursor,
        hshift, Nat.sub_zero]

theorem scanNodes_uint32 (nodes : List Node) {idx cursor : UInt32} (pos : ℕ)
    (hsum : cursor.toNat + (widths nodes).sum < 2 ^ 32) :
    scanNodes UInt32.ofNat idx nodes cursor pos =
      scanNodes id idx.toNat nodes cursor.toNat pos := by
  induction nodes generalizing cursor pos with
  | nil => rfl
  | cons n nodes ih =>
    rw [widths_cons, List.sum_cons] at hsum
    unfold scanNodes
    by_cases hn : n.healthy
    · rw [n.width_of_healthy hn] at hsum
      have hadd : (cursor + UInt32.ofNat n.weight).toNat = cursor.toNat + n.weight := by
        rw [UInt32.toNat_add, UInt32.toNat_ofNat', Nat.add_mod_mod, Nat.mod_eq_of_lt]
        omega
      rw [if_neg (not_not.mpr hn), if_neg (not_not.mpr hn)]
      simp only [UInt32.lt_iff_toNat_lt, hadd, id_eq]
      rw [ih _ (by rw [hadd]; omega), hadd]
    · rw [n.width_of_unhealthy hn, Nat.zero_add] at hsum
      rw [if_pos hn, if_pos hn]
      exact ih _ hsum

theorem pyFnv32a_eq (data : Bytes) : pyFnv32a data = (fnv32a data).toNat := by
  have hfold : ∀ (data : Bytes) (h : UInt32),
      data.foldl (fun h b => ((h ^^^ b.toNat) * 0x01000193) &&& 0xFFFFFFFF) h.toNat =
        (data.foldl (fun h b => (h ^^^ b.toUInt32) * 16777619) h).toNat := by
    intro data
    induction data with
    | nil => exact fun h => rfl
    | cons b data ih =>
      intro h
      have hstep : ((h.toNat ^^^ b.toNat) * 0x01000193) &&& 0xFFFFFFFF =
          ((h ^^^ b.toUInt32) * 16777619).toNat := by
        rw [UInt32.toNat_mul, UInt32.toNat_xor, UInt8.toNat_toUInt32]
        exact Nat.and_two_pow_sub_one_eq_mod _ 32
      rw [List.foldl_cons, List.foldl_cons, hstep, ih]
  exact hfold data 2166136261

theorem uint32_ne_zero {n : ℕ} (hpos : 0 < n) (hlt : n < 2 ^ 32) : UInt32.ofNat n ≠ 0 := by
  intro hzero
  have hcut := UInt32.toNat_ofNat_of_lt' hlt
  rw [hzero, UInt32.toNat_zero] at hcut
  omega

theorem mod_uint32 (hash : UInt32) {n : ℕ} (hlt : n < 2 ^ 32) :
    (hash % .ofNat n).toNat = hash.toNat % n := by
  rw [UInt32.toNat_mod, UInt32.toNat_ofNat_of_lt' hlt]

section Routes

variable {nodes : List Node} (hsum : (nodes.map Node.weight).sum < 2 ^ 32)
  (hhealthy : ∃ n ∈ nodes, n.healthy)

include hsum in
theorem sum_widths_lt : (widths nodes).sum < 2 ^ 32 := by
  refine (List.sum_le_sum fun n _ => ?_).trans_lt hsum
  unfold Node.width
  split_ifs
  · exact le_rfl
  · exact Nat.zero_le _

include hhealthy in
theorem sum_widths_pos : 0 < (widths nodes).sum := by
  rcases hhealthy with ⟨n, hn, hn'⟩
  refine n.weight_pos.trans_le ?_
  rw [← n.width_of_healthy hn']
  exact List.le_sum_of_mem (List.mem_map_of_mem hn)

include hsum hhealthy in
theorem pickNode_eq (key : Bytes) : pickNode nodes key =
      .ok (rangeAt (widths nodes) ((fnv32a key).toNat % (widths nodes).sum)) := by
  have hlt := sum_widths_lt hsum
  have hpos := sum_widths_pos hhealthy
  unfold pickNode
  rw [totalWeight_eq (hlt.trans (by norm_num)), if_neg hpos.ne',
    if_neg (uint32_ne_zero hpos hlt), scanNodes_uint32 _ _ (by simpa using hlt),
    UInt32.toNat_zero, scanNodes_id _ _ (Nat.zero_le _), mod_uint32 _ hlt]
  simp

include hhealthy in
theorem pyPick_eq (key : Bytes) : pyPick nodes key =
      rangeAt (widths nodes) ((fnv32a key).toNat % (widths nodes).sum) := by
  have hpos := sum_widths_pos hhealthy
  rcases exists_rangeAt (Nat.mod_lt (fnv32a key).toNat hpos) with ⟨pos, -, hrange⟩
  unfold pyPick
  simp only [sum_filter_healthy, pyFnv32a_eq, if_neg hpos.ne']
  rw [scanNodes_id _ _ (Nat.zero_le _), Nat.sub_zero, hrange]
  simp

end Routes

theorem clients_agree {nodes : List Node} (hsum : (nodes.map Node.weight).sum < 2 ^ 32)
    (hhealthy : ∃ n ∈ nodes, n.healthy) (key : Bytes) :
    ∃ pos < nodes.length, pickNode nodes key = .ok (some pos) ∧ pyPick nodes key = some pos ∧
        ((∀ n ∈ nodes, n.weight = 1 ∧ n.healthy) → pickClusterNode nodes.length key = .ok pos ∧
            cppPickNode nodes.length key = some pos) := by
  have hpos := sum_widths_pos hhealthy
  rcases exists_rangeAt (Nat.mod_lt (fnv32a key).toNat hpos) with ⟨pos, hlength, hrange⟩
  rw [widths_length] at hlength
  refine ⟨pos, hlength, ?_, ?_, fun hones => ?_⟩
  · rw [pickNode_eq hsum hhealthy, hrange]
  · rw [pyPick_eq hhealthy, hrange]
  · have hwidths : widths nodes = List.replicate nodes.length 1 := by
      refine List.eq_replicate_iff.mpr ⟨widths_length nodes, fun width hwidth => ?_⟩
      rcases List.mem_map.mp hwidth with ⟨n, hn, rfl⟩
      rw [n.width_of_healthy (hones n hn).2, (hones n hn).1]
    have hsize : (widths nodes).sum = nodes.length := by
      simp [hwidths]
    have hlt := sum_widths_lt hsum
    rw [hsize] at hpos hlt hrange
    rw [hwidths, rangeAt_ones (Nat.mod_lt _ hpos), Option.some.injEq] at hrange
    subst hrange
    constructor
    · unfold pickClusterNode
      by_cases hone : nodes.length = 1
      · rw [if_pos hone, hone, Nat.mod_one]
      · rw [if_neg hone, if_neg (uint32_ne_zero hpos hlt), mod_uint32 _ hlt]
    · exact if_neg hpos.ne'

def three : List Node := List.replicate 3 ⟨1, true, by decide⟩

theorem clients_agree_three : ∃ pos < 3, pickNode three (ascii "hello") = .ok (some pos) ∧
      pyPick three (ascii "hello") = some pos ∧ pickClusterNode 3 (ascii "hello") = .ok pos ∧
          cppPickNode 3 (ascii "hello") = some pos := by
  have hsum : (three.map Node.weight).sum < 2 ^ 32 := by decide
  rcases clients_agree hsum ⟨_, List.mem_cons_self, rfl⟩ (ascii "hello") with
    ⟨pos, hlt, hgo, hpython, hones⟩
  exact ⟨pos, hlt, hgo, hpython, hones (by simp [three])⟩

def failNode (nodes : List Node) (x : ℕ) : List Node :=
  nodes.modify x fun n => { n with healthy := false }

@[simp] theorem failNode_length (nodes : List Node) (x : ℕ) :
    (failNode nodes x).length = nodes.length :=
  List.length_modify _ _ _

theorem widths_failNode (nodes : List Node) (x : ℕ) :
    widths (failNode nodes x) = (widths nodes).set x 0 := by
  induction nodes generalizing x with
  | nil => simp [widths, failNode]
  | cons n nodes ih =>
    cases x with
    | zero => rfl
    | succ x => exact congrArg (n.width :: ·) (ih x)

theorem map_weight_failNode (nodes : List Node) (x : ℕ) :
    (failNode nodes x).map Node.weight = nodes.map Node.weight := by
  induction nodes generalizing x with
  | nil => simp [failNode]
  | cons n nodes ih =>
    cases x with
    | zero => rfl
    | succ x => exact congrArg (n.weight :: ·) (ih x)

def KeepsRange (nodes : List Node) (x hash : ℕ) : Prop :=
  let point := hash % (widths nodes).sum
  let rest := widths (failNode nodes x)
  (rangeStart (widths nodes) x ≤ point ∧ point < rangeStart (widths nodes) (x + 1)) ∨
    ∀ k < nodes.length, (rangeStart rest k ≤ pointWithout (widths nodes) x point ↔
        rangeStart rest k ≤ hash % rest.sum)

instance (nodes : List Node) (x hash : ℕ) : Decidable (KeepsRange nodes x hash) := by
  unfold KeepsRange
  infer_instance

theorem pickNode_stays_iff {nodes : List Node} (hsum : (nodes.map Node.weight).sum < 2 ^ 32) {x : ℕ}
    (hx : (nodes[x]?.map Node.healthy) = some true)
    (hother : ∃ y, y ≠ x ∧ (nodes[y]?.map Node.healthy) = some true) (key : Bytes) :
    (pickNode nodes key ≠ .ok (some x) → pickNode (failNode nodes x) key = pickNode nodes key) ↔
      KeepsRange nodes x (fnv32a key).toNat := by
  have hhealthy : ∃ n ∈ nodes, n.healthy := by
    rcases Option.map_eq_some_iff.mp hx with ⟨n, hn, hn'⟩
    exact ⟨n, List.mem_of_getElem? hn, hn'⟩
  have hrest : ∃ n ∈ failNode nodes x, n.healthy := by
    rcases hother with ⟨y, hne, hy⟩
    rcases Option.map_eq_some_iff.mp hy with ⟨n, hn, hn'⟩
    refine ⟨n, List.mem_of_getElem? (i := y) ?_, hn'⟩
    simp [failNode, hne.symm, hn]
  have hpos := sum_widths_pos hhealthy
  have hposRest := sum_widths_pos hrest
  rw [pickNode_eq hsum hhealthy, pickNode_eq (by rwa [map_weight_failNode]) hrest]
  unfold KeepsRange
  dsimp only
  generalize (fnv32a key).toNat = hash
  rcases exists_rangeAt (Nat.mod_lt hash hpos) with ⟨j, -, hrange⟩
  rw [hrange, ← rangeAt_eq_some_iff, hrange]
  by_cases hj : j = x
  · simp [hj]
  · have hkept := rangeAt_pointWithout hrange hj
    rw [← widths_failNode] at hkept
    have hstarts := rangeAt_eq_rangeAt_iff (lt_sum_of_rangeAt hkept) (Nat.mod_lt hash hposRest)
    rw [hkept, widths_length, failNode_length] at hstarts
    simpa [hj] using hstarts

theorem pickNode_stays_user : pickNode three (ascii "user") = .ok (some 0) ∧
      pickNode (failNode three 2) (ascii "user") = .ok (some 0) := by
  have hfirst : pickNode three (ascii "user") = .ok (some 0) := by decide +kernel
  have hne : pickNode three (ascii "user") ≠ .ok (some 2) := by
    rw [hfirst]
    decide
  have hstays := (pickNode_stays_iff (by decide) rfl ⟨0, by decide, rfl⟩ _).mpr
    (by decide +kernel) hne
  exact ⟨hfirst, hstays.trans hfirst⟩

theorem pickNode_hello_moves : pickNode three (ascii "hello") = .ok (some 0) ∧
      pickNode (failNode three 2) (ascii "hello") = .ok (some 1) := by
  decide +kernel

end MCache.Cluster

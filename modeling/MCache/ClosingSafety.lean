import MCache.CacheClosing
import MCache.ShardChanges

/-!
# Calls that `Close` does not disturb

Every run with `Close` is compared with a run of the same calls without it.  Up
to the store of the empty table the two differ in the closed flag and the mutex
only.  Behind it the calls that are left hold their shards and look at nothing
that `Close` has taken away, and every new call is refused.
-/

namespace MCache.Store.Closing

/-! ## Calls behind the empty table -/

def Call.Independent (sh th : Shared) (call : Call) : Prop :=
  match call.stage with
  | .method loaded _ => loaded = true ∧
      (call.op.shardOnly = true ∨ (sh.rehashing = false ∧ th.rehashing = false))
  | .isRehashing | .recheck | .count _ _ _ | .lenFlag _ =>
    sh.rehashing = false ∧ th.rehashing = false
  | _ => False

section Independent

variable {c : Cache} {order : MapOrder} {clock : Clock} {sh th : Shared} {call : Call}
  {next : Shared × Next}

def Next.Independent (sh th : Shared) (op : Op) : Next → Prop
  | .goes stage answer => Call.Independent sh th ⟨op, stage, answer⟩
  | .returns _ => True

theorem Op.afterMethod_independent {op : Op} (answer : Answer)
    (h : op.shardOnly = true ∨ (sh.rehashing = false ∧ th.rehashing = false)) :
    (op.afterMethod answer).Independent sh th op := by
  cases op <;> first
    | trivial
    | exact h.resolve_left nofun

theorem Op.afterCheck_independent (op : Op) (answer : Answer)
    (h : sh.rehashing = false ∧ th.rehashing = false) :
    (op.afterCheck false answer).Independent sh th op := by
  cases op <;> cases answer <;> trivial

structure Follows (sh th : Shared) (op : Op) (next other : Shared × Next) : Prop where
  frame : next.1 = { sh with table := next.1.table }
  otherFrame : other.1 = { th with table := next.1.table }
  same : other.2 = next.2
  independent : next.2.Independent sh th op

variable (h : call.Independent sh th)
include h

theorem Call.Independent.access (htable : th.table = sh.table)
    (haccess : call.access c clock sh = some next) :
    ∃ other, call.access c clock th = some other ∧ Follows sh th call.op next other := by
  obtain ⟨op, stage, answer⟩ := call
  cases stage <;> try exact h.elim
  case method loaded part =>
    obtain ⟨rfl, hop⟩ := h
    dsimp only [Call.access, if_true] at haccess ⊢
    rcases Option.map_eq_some_iff.mp haccess with ⟨m, hm, rfl⟩
    rw [hm, htable]
    refine ⟨_, rfl, rfl, rfl, rfl, ?_⟩
    dsimp only
    split
    · exact ⟨rfl, hop⟩
    · exact Op.afterMethod_independent _ hop
  case isRehashing =>
    dsimp only [Call.access] at haccess ⊢
    rw [h.1] at haccess
    cases haccess
    rw [h.2]
    exact ⟨_, rfl, rfl, by rw [← htable], rfl, Op.afterCheck_independent op answer h⟩
  case recheck =>
    dsimp only [Call.access] at haccess ⊢
    rw [h.1] at haccess
    cases haccess
    rw [h.2]
    exact ⟨_, rfl, rfl, by rw [← htable], rfl, trivial⟩
  case count => cases haccess
  case lenFlag => cases haccess

theorem Call.Independent.count (htable : th.table = sh.table)
    (hcount : call.count clock sh = some next) :
    ∃ other, call.count clock th = some other ∧ Follows sh th call.op next other := by
  obtain ⟨op, stage, answer⟩ := call
  cases stage <;> try exact h.elim
  case count i slot total =>
    dsimp only [Call.count] at hcount ⊢
    rw [htable]
    split at hcount <;> cases hcount
    all_goals exact ⟨_, rfl, rfl, by rw [← htable], rfl, h⟩
  case lenFlag total =>
    dsimp only [Call.count] at hcount ⊢
    rw [h.1] at hcount
    cases hcount
    rw [h.2]
    exact ⟨_, rfl, rfl, by rw [← htable], rfl, trivial⟩
  all_goals cases hcount

theorem Call.Independent.migrate_eq_none (kind : RehasherKind) (sh : Shared) :
    call.migrate kind order clock sh = none := by
  obtain ⟨op, stage, answer⟩ := call
  cases stage <;> first
    | exact h.elim
    | rfl

theorem Call.Independent.advance (hop : call.op ≠ .close) (htable : th.table = sh.table)
    (hadvance : call.advance c order clock sh = some next) :
    ∃ other, call.advance c order clock th = some other ∧ Follows sh th call.op next other := by
  unfold Call.advance at hadvance ⊢
  split at hadvance
  · contradiction
  · exact h.count htable hadvance
  · rw [h.migrate_eq_none, Option.or_none] at hadvance
    rw [h.migrate_eq_none, Option.or_none]
    exact h.access htable hadvance

end Independent

/-! ## Runs with `Close` and runs without -/

def Call.kept (call : Call) : Option Call :=
  if call.op = .close then none else some call

def Stage.Closes (sh : Shared) : Stage → Prop
  | .closeTable => sh.closed = true
  | .stopFlag | .stopLock => sh.closed = true ∧ sh.stored = false
  | .panicked => False
  | _ => True

section Erasure

variable {n : ℕ} {c : Cache} {s t : State n}
variable {sh next : Shared} {p : Fin n} {call : Call} {order : MapOrder}
    {clock : Clock}

structure Erased (s t : State n) : Prop where
  sound : s.shared.Sound
  inRange : ∀ p call, s.threads p = some call → call.op ≠ .close →
    call.stage.InRange (2 ^ s.shared.table.bits) (2 ^ s.shared.old.bits)
  shared : t.shared = s.shared.unclosed
  threads : ∀ p, t.threads p = (s.threads p).bind Call.kept

def Call.CountsNone (sh : Shared) (call : Call) : Prop := call.op = .len ∧ sh.rehashing = false ∧
    (call.stage = .load ∨ call.stage = .lenFlag 0)

structure Detached (s t : State n) : Prop where
  closed : s.shared.closed = true
  stored : s.shared.stored = false
  table : t.shared.table = s.shared.table
  threads : ∀ p call, s.threads p = some call → call.op ≠ .close →
    (t.threads p = some call ∧ call.Independent s.shared t.shared) ∨ call.CountsNone s.shared

def WithoutClose (c : Cache) (t : State n) : Prop :=
  (closing c n).ReachableBy (fun _ a => a.begins ≠ some .close) t

structure Inv (c : Cache) (s : State n) : Prop where
  closers : ∀ p call, s.threads p = some call → call.op = .close → call.stage.Closes s.shared
  erased : ∃ t, WithoutClose c t ∧ (Erased s t ∨ Detached s t) ∧
    ∀ r ∈ s.returned, r.2 = r.1.whenClosed ∨ r ∈ t.returned

theorem Inv.safe (h : Inv c s) : Safe c s := by
  rcases h.erased with ⟨t, ht, hrel, hreturned⟩
  refine ⟨fun p call hcall hpanicked => ?_, t, ht, hreturned⟩
  by_cases hop : call.op = .close
  · have hcloses := h.closers p call hcall hop
    rw [hpanicked] at hcloses
    exact hcloses
  · rcases hrel with herased | hdetached
    · have hrange := herased.inRange p call hcall hop
      rw [hpanicked] at hrange
      exact hrange
    · rcases hdetached.threads p call hcall hop with ⟨-, hindependent⟩ | hcounts
      · unfold Call.Independent at hindependent
        rw [hpanicked] at hindependent
        exact hindependent
      · rcases hcounts.2.2 with hstage | hstage <;> cases hpanicked.symm.trans hstage

/-! ### Steps -/

theorem Stage.Closes.mono {stage : Stage} (h : stage.Closes sh)
    (hclosed : sh.closed = true → next.closed = true)
    (hstored : sh.stored = false → next.stored = false) : stage.Closes next := by
  cases stage <;> first
    | exact hclosed h
    | exact ⟨hclosed h.1, hstored h.2⟩
    | exact h

theorem Erased.threads_update (h : Erased s t) {x y : Option Call}
    (hxy : y = x.bind Call.kept) (q : Fin n) :
    Function.update t.threads p y q = (Function.update s.threads p x q).bind Call.kept := by
  by_cases hq : q = p
  · subst hq
    rw [Function.update_self, Function.update_self, hxy]
  · rw [Function.update_of_ne hq, Function.update_of_ne hq, h.threads q]

theorem Erased.threads_close (h : Erased s t) {x : Option Call}
    (hp : (s.threads p).bind Call.kept = none) (hx : x.bind Call.kept = none)
    (q : Fin n) : t.threads q = (Function.update s.threads p x q).bind Call.kept := by
  rw [← h.threads_update hx.symm q, ← hp, ← h.threads p, Function.update_eq_self]

theorem Call.kept_close (hop : call.op = .close) : call.kept = none := if_pos hop

theorem Call.kept_other (hop : call.op ≠ .close) : call.kept = some call := if_neg hop

theorem mem_append_returned {returned : List (Op × Result)} {x : Op × Result}
    (hold : ∀ r ∈ s.returned, r.2 = r.1.whenClosed ∨ r ∈ returned) :
    ∀ r ∈ s.returned ++ [x], r.2 = r.1.whenClosed ∨ r ∈ returned ++ [x] := by
  intro r hr
  rcases List.mem_append.mp hr with hr | hr
  · exact (hold r hr).imp_right (List.mem_append_left _)
  · exact .inr (List.mem_append_right _ hr)

theorem Inv.begin (h : Inv c s) (hidle : s.threads p = none) (op : Op)
    (order : MapOrder) (clock : Clock) : Inv c (s.begin p op) := by
  rcases h.erased with ⟨t, ht, hrel, hreturned⟩
  unfold State.begin
  split_ifs with hop hclosed
  · constructor
    case closers =>
      refine forall_update (fun call hcall _ => ?_) fun q call hq _ => h.closers q call hq
      cases hcall
      trivial
    case erased =>
      have hx : ∀ call : Call, some ⟨op, .closeLock, .done⟩ = some call → call.op = .close := by
        rintro _ ⟨⟩
        exact hop
      refine ⟨t, ht, hrel.imp ?_ ?_, hreturned⟩
      · intro herased
        exact ⟨herased.sound, forall_update (fun call hcall hne => (hne (hx call hcall)).elim)
            fun q call hq _ => herased.inRange q call hq,
          herased.shared,
          herased.threads_close (by rw [hidle]; rfl) (Call.kept_close hop)⟩
      · intro hdetached
        exact ⟨hdetached.closed, hdetached.stored, hdetached.table,
          forall_update (fun call hcall hne => (hne (hx call hcall)).elim)
            fun q call hq _ => hdetached.threads q call hq⟩
  · refine ⟨h.closers, t, ht, hrel.imp ?_ ?_, ?_⟩
    · exact fun herased => ⟨herased.sound, herased.inRange, herased.shared, herased.threads⟩
    · exact fun hdetached =>
        ⟨hdetached.closed, hdetached.stored, hdetached.table, hdetached.threads⟩
    · intro r hr
      rcases List.mem_append.mp hr with hr | hr
      · exact hreturned r hr
      · cases List.mem_singleton.mp hr
        exact .inl rfl
  · have herased : Erased s t := hrel.resolve_right fun hdetached => hclosed hdetached.closed
    have htidle : t.threads p = none := by
      rw [herased.threads p, hidle]
      rfl
    have htclosed : t.shared.closed = false := by
      rw [herased.shared]
      rfl
    have hbegins : (⟨p, some op, order, clock⟩ : Action n).begins ≠ some .close := by
      simpa using hop
    have hstep : (closing c n).step t ⟨p, some op, order, clock⟩ = some (t.begin p op) := by
      simp only [closing, State.step, htidle]
    have hnext := TransitionSystem.ReachableBy.step ht hbegins hstep
    rw [State.begin, if_neg hop, htclosed, if_neg (by simp)] at hnext
    cases hinvalid : op.invalid with
    | some e =>
      rw [hinvalid] at hnext
      exact ⟨h.closers, _, hnext, .inl ⟨herased.sound, herased.inRange, herased.shared,
        herased.threads⟩, mem_append_returned hreturned⟩
    | none =>
      rw [hinvalid] at hnext
      constructor
      case closers =>
        refine forall_update (fun call hcall hclose => ?_) fun q call hq _ => h.closers q call hq
        cases hcall
        exact (hop hclose).elim
      case erased =>
        refine ⟨_, hnext, .inl ⟨herased.sound, forall_update ?_
          fun q call hq _ => herased.inRange q call hq,
          herased.shared, herased.threads_update (Call.kept_other hop).symm⟩, hreturned⟩
        rintro _ ⟨⟩ -
        trivial

theorem Inv.advance_erased (h : Inv c s) (ht : WithoutClose c t) (herased : Erased s t)
    (hreturned : ∀ r ∈ s.returned, r.2 = r.1.whenClosed ∨ r ∈ t.returned)
    (hcall : s.threads p = some call) (hop : call.op ≠ .close) {step : Next}
    (hkept : s.shared.Kept (sh, step))
    (hadvance : call.advance c order clock s.shared = some (sh, step)) :
    Inv c (s.goOn p call sh step) := by
  have htcall : t.threads p = some call := by
    rw [herased.threads p, hcall]
    exact Call.kept_other hop
  have hstep : (closing c n).step t ⟨p, none, order, clock⟩ =
      some (t.goOn p call sh.unclosed step) := by
    simp only [closing, State.step, htcall, herased.shared]
    rw [Call.advance_unclosed hop, hadvance]
    rfl
  have hnext := TransitionSystem.ReachableBy.step ht (by simp) hstep
  have hshards : sh.table.bits = s.shared.table.bits := hkept.shards
  have holdShards : sh.old.bits = s.shared.old.bits := hkept.oldShards
  have hbits : ∀ q other, s.threads q = some other → q ≠ p → other.op ≠ .close →
      other.stage.InRange (2 ^ sh.table.bits) (2 ^ sh.old.bits) := by
    rw [hshards, holdShards]
    exact fun q other hother _ => herased.inRange q other hother
  have hclosers : ∀ q other, s.threads q = some other → q ≠ p → other.op = .close →
      other.stage.Closes sh := fun q other hother _ hclose =>
    (h.closers q other hother hclose).mono (fun hclosed => hkept.closed.trans hclosed)
      fun hstored => absurd (hstored.symm.trans herased.sound.stored) (by decide)
  cases step with
  | goes stage answer =>
    have hin : stage.InRange (2 ^ sh.table.bits) (2 ^ sh.old.bits) := by
      rw [hshards, holdShards]
      exact hkept.inRange
    constructor
    case closers =>
      refine forall_update (fun other hother hclose => ?_) hclosers
      cases hother
      exact (hop hclose).elim
    case erased =>
      refine ⟨_, hnext, .inl ⟨hkept.sound, forall_update ?_ hbits, rfl,
        herased.threads_update ?_⟩, hreturned⟩
      · rintro _ ⟨⟩ -
        exact hin
      · have hstays : Call.kept ⟨call.op, stage, answer⟩ = _ := Call.kept_other hop
        exact hstays.symm
  | returns result =>
    constructor
    case closers => exact forall_update_none hclosers
    case erased =>
      refine ⟨_, hnext, .inl ⟨hkept.sound, forall_update_none hbits, rfl,
        herased.threads_update (x := none) rfl⟩, ?_⟩
      simp only [State.goOn, if_neg hop]
      exact mem_append_returned hreturned

theorem Call.CountsNone.advance {next : Shared × Next} (h : call.CountsNone sh)
    (hstored : sh.stored = false)
    (hadvance : call.advance c order clock sh = some next) :
    next = (sh, .goes (.lenFlag 0) call.answer) ∨
      next = (sh, .returns call.op.whenClosed) := by
  obtain ⟨op, stage, answer⟩ := call
  obtain ⟨rfl, hrehashing, rfl | rfl⟩ := h
  · simp only [Call.advance, Call.count, hstored] at hadvance
    cases hadvance
    exact .inl rfl
  · simp only [Call.advance, Call.count, hrehashing] at hadvance
    cases hadvance
    exact .inr rfl

theorem Inv.advance_detached (h : Inv c s) (ht : WithoutClose c t) (hdetached : Detached s t)
    (hreturned : ∀ r ∈ s.returned, r.2 = r.1.whenClosed ∨ r ∈ t.returned)
    (hcall : s.threads p = some call) (hop : call.op ≠ .close) {step : Next}
    (hadvance : call.advance c order clock s.shared = some (sh, step)) :
    Inv c (s.goOn p call sh step) := by
  rcases hdetached.threads p call hcall hop with ⟨htcall, hindependent⟩ | hcounts
  · rcases hindependent.advance hop hdetached.table hadvance with
      ⟨⟨th, step⟩, hother, hframe, hotherFrame, rfl, hnextIndependent⟩
    dsimp only at hframe hotherFrame hnextIndependent
    have hstep : (closing c n).step t ⟨p, none, order, clock⟩ = some (t.goOn p call th step) := by
      simp only [closing, State.step, htcall, hother]
      rfl
    have hnext := TransitionSystem.ReachableBy.step ht (by simp) hstep
    have hclosers : ∀ q other, s.threads q = some other → q ≠ p → other.op = .close →
        other.stage.Closes sh := fun q other hq _ hclose =>
      (h.closers q other hq hclose).mono (fun hclosed => by rw [hframe]; exact hclosed)
        fun hstored => by rw [hframe]; exact hstored
    have hthreads : ∀ y q other, s.threads q = some other → q ≠ p → other.op ≠ .close →
        (Function.update t.threads p y q = some other ∧ other.Independent sh th) ∨
          other.CountsNone sh := by
      intro y q other hq hne hotherOp
      rw [Function.update_of_ne hne, hframe, hotherFrame]
      exact hdetached.threads q other hq hotherOp
    have hclosed : sh.closed = true := by rw [hframe]; exact hdetached.closed
    have hstored : sh.stored = false := by rw [hframe]; exact hdetached.stored
    have htable : th.table = sh.table := by rw [hotherFrame]
    cases step with
    | goes stage answer =>
      constructor
      case closers =>
        refine forall_update (fun other hsame hclose => ?_) hclosers
        cases hsame
        exact (hop hclose).elim
      case erased =>
        refine ⟨_, hnext, .inr ⟨hclosed, hstored, htable, forall_update ?_ (hthreads _)⟩, hreturned⟩
        rintro _ ⟨⟩ -
        refine .inl ⟨Function.update_self _ _ _, ?_⟩
        rw [hframe, hotherFrame]
        exact hnextIndependent
    | returns result =>
      constructor
      case closers => exact forall_update_none hclosers
      case erased =>
        refine ⟨_, hnext, .inr ⟨hclosed, hstored, htable, forall_update_none (hthreads _)⟩, ?_⟩
        simp only [State.goOn, if_neg hop]
        exact mem_append_returned hreturned
  · have hothers : ∀ q other, s.threads q = some other → q ≠ p → other.op ≠ .close →
        (t.threads q = some other ∧ other.Independent s.shared t.shared) ∨
          other.CountsNone s.shared := fun q other hq _ => hdetached.threads q other hq
    have hclosers : ∀ q other, s.threads q = some other → q ≠ p → other.op = .close →
        other.stage.Closes s.shared := fun q other hq _ => h.closers q other hq
    rcases hcounts.advance hdetached.stored hadvance with heq | heq <;> cases heq
    · constructor
      case closers =>
        refine forall_update (fun other hsame hclose => ?_) hclosers
        cases hsame
        exact (hop hclose).elim
      case erased =>
        refine ⟨t, ht, .inr ⟨hdetached.closed, hdetached.stored, hdetached.table,
          forall_update ?_ hothers⟩, hreturned⟩
        rintro _ ⟨⟩ -
        exact .inr ⟨hcounts.1, hcounts.2.1, .inr rfl⟩
    · constructor
      case closers => exact forall_update_none hclosers
      case erased =>
        refine ⟨t, ht, .inr ⟨hdetached.closed, hdetached.stored, hdetached.table,
          forall_update_none hothers⟩, ?_⟩
        simp only [State.goOn, if_neg hop]
        intro r hr
        rcases List.mem_append.mp hr with hr | hr
        · exact hreturned r hr
        · cases List.mem_singleton.mp hr
          exact .inl rfl

structure Overtakes (sh next : Shared) : Prop where
  table : next.table = sh.table
  closed : sh.closed = true → next.closed = true
  stored : sh.stored = false → next.stored = false
  rehashing : sh.rehashing = false → next.rehashing = false

theorem Call.close_overtakes {next : Shared × Next} (hcloses : call.stage.Closes sh)
    (hclose : call.close sh = some next) :
    Overtakes sh next.1 ∧ ∀ stage answer, next.2 = .goes stage answer → stage.Closes next.1 := by
  obtain ⟨op, stage, answer⟩ := call
  cases stage <;> simp only [Call.close] at hclose <;> try cases hclose
  case closeLock =>
    split_ifs at hclose
    cases hclose
    exact ⟨⟨rfl, id, id, id⟩, by rintro _ _ ⟨⟩; trivial⟩
  case closeCheck =>
    split_ifs at hclose <;> cases hclose
    · exact ⟨⟨rfl, id, id, id⟩, by rintro _ _ ⟨⟩⟩
    · exact ⟨⟨rfl, id, id, id⟩, by rintro _ _ ⟨⟩; trivial⟩
  case closeFlag.refl => exact ⟨⟨rfl, fun _ => rfl, id, id⟩, by rintro _ _ ⟨⟩; rfl⟩
  case closeTable.refl =>
    exact ⟨⟨rfl, id, fun _ => rfl, id⟩, by rintro _ _ ⟨⟩; exact ⟨hcloses, rfl⟩⟩
  case stopFlag.refl =>
    exact ⟨⟨rfl, id, id, fun _ => rfl⟩, by rintro _ _ ⟨⟩; exact hcloses⟩
  case stopLock.refl => exact ⟨⟨rfl, id, id, id⟩, by rintro _ _ ⟨⟩⟩

theorem Call.close_unclosed {next : Shared × Next} (hcloses : call.stage.Closes sh)
    (hstored : sh.stored = true) (hstage : call.stage ≠ .closeTable)
    (hclose : call.close sh = some next) : next.1.unclosed = sh.unclosed := by
  obtain ⟨op, stage, answer⟩ := call
  cases stage <;> simp only [Call.close] at hclose <;> try cases hclose
  case closeLock =>
    split_ifs at hclose
    cases hclose
    rfl
  case closeCheck => split_ifs at hclose <;> cases hclose <;> rfl
  case closeFlag.refl => rfl
  case closeTable.refl => exact (hstage rfl).elim
  case stopFlag.refl => exact absurd (hcloses.2.symm.trans hstored) (by decide)
  case stopLock.refl => exact absurd (hcloses.2.symm.trans hstored) (by decide)

theorem Call.Independent.mono {th : Shared} (h : call.Independent sh th)
    (hrehashing : sh.rehashing = false → next.rehashing = false) :
    call.Independent next th := by
  obtain ⟨op, stage, answer⟩ := call
  cases stage <;> first
    | exact h.elim
    | exact ⟨h.1, h.2.imp_right fun hboth => ⟨hrehashing hboth.1, hboth.2⟩⟩
    | exact ⟨hrehashing h.1, h.2⟩

theorem Call.independent_of_unaffected {th : Shared} (hop : call.op ≠ .close)
    (hsame : th.rehashing = sh.rehashing) (h : call.unaffected sh = true) :
    call.Independent sh th ∨ call.CountsNone sh := by
  obtain ⟨op, stage, answer⟩ := call
  unfold Call.Independent Call.CountsNone
  rw [hsame]
  cases stage <;> simp only [Call.unaffected, Bool.false_eq_true] at h
  case load =>
    simp only [Bool.and_eq_true, decide_eq_true_eq, Bool.not_eq_true'] at h
    exact .inr ⟨h.1, h.2, .inl rfl⟩
  case method =>
    simp only [Bool.and_eq_true, Bool.or_eq_true, Bool.not_eq_true'] at h
    exact .inl ⟨h.1, h.2.imp_right fun hfalse => ⟨hfalse, hfalse⟩⟩
  case closeLock => exact (hop (of_decide_eq_true h)).elim
  all_goals
    simp only [Bool.not_eq_true'] at h
    exact .inl ⟨h, h⟩

theorem State.goOn_close (hop : call.op = .close) {step : Next}
    (hcloses : ∀ stage answer, step = .goes stage answer → stage.Closes sh) :
    ∃ x, s.goOn p call sh step = ⟨sh, Function.update s.threads p x, s.returned⟩ ∧
      ∀ other, x = some other → other.op = .close ∧ other.stage.Closes sh := by
  cases step with
  | goes stage answer =>
    refine ⟨_, rfl, ?_⟩
    rintro _ ⟨⟩
    exact ⟨hop, hcloses stage answer rfl⟩
  | returns result =>
    refine ⟨none, ?_, fun _ hnone => nomatch hnone⟩
    simp only [State.goOn, if_pos hop]

theorem Shared.Sound.of_unclosed (h : sh.Sound)
    (hunclosed : next.unclosed = sh.unclosed) : next.Sound := by
  have hsound : sh.unclosed.Sound := ⟨h.stored, h.migrates⟩
  rw [← hunclosed] at hsound
  exact ⟨hsound.stored, hsound.migrates⟩

theorem Inv.close (h : Inv c s) (hcall : s.threads p = some call) (hop : call.op = .close)
    (hundisturbed : call.stage = .closeTable →
      ∀ q, q ≠ p → (s.threads q).all (Call.unaffected s.shared) = true) {step : Next}
    (hclose : call.close s.shared = some (sh, step)) :
    Inv c (s.goOn p call sh step) := by
  have hcloses := h.closers p call hcall hop
  rcases Call.close_overtakes hcloses hclose with ⟨hovertakes, hnext⟩
  rcases State.goOn_close (s := s) (p := p) hop hnext with ⟨x, hgoOn, hx⟩
  rw [hgoOn]
  rcases h.erased with ⟨t, ht, hrel, hreturned⟩
  constructor
  case closers =>
    exact forall_update (fun other hother _ => (hx other hother).2) fun q other hq _ hclose =>
      (h.closers q other hq hclose).mono hovertakes.closed hovertakes.stored
  case erased =>
    refine ⟨t, ht, ?_, hreturned⟩
    rcases hrel with herased | hdetached
    · by_cases hstage : call.stage = .closeTable
      · -- the step that takes the table away
        rw [hstage] at hcloses
        have hsh : sh = { s.shared with stored := false } := by
          simp only [Call.close, hstage, Option.some.injEq, Prod.mk.injEq] at hclose
          exact hclose.1.symm
        subst hsh
        refine .inr ⟨hcloses, rfl, by rw [herased.shared]; rfl, forall_update ?_ ?_⟩
        · exact fun other hother hne => (hne (hx other hother).1).elim
        · intro q other hq hne hother
          have hunaffected := hundisturbed hstage q hne
          rw [hq] at hunaffected
          have hsame : t.shared.rehashing = s.shared.rehashing := by
            rw [herased.shared]
            rfl
          refine (Call.independent_of_unaffected hother hsame hunaffected).imp ?_ id
          intro hindependent
          refine ⟨?_, hindependent⟩
          rw [herased.threads q, hq]
          exact Call.kept_other hother
      · have hunclosed := Call.close_unclosed hcloses herased.sound.stored hstage hclose
        have htable : sh.table = s.shared.table := by
          simpa [Shared.unclosed] using congrArg Shared.table hunclosed
        have hold : sh.old = s.shared.old := by
          simpa [Shared.unclosed] using congrArg Shared.old hunclosed
        refine .inl ⟨herased.sound.of_unclosed hunclosed, forall_update ?_ ?_,
          herased.shared.trans hunclosed.symm, herased.threads_close ?_ ?_⟩
        · exact fun other hother hne => (hne (hx other hother).1).elim
        · rw [htable, hold]
          exact fun q other hq _ => herased.inRange q other hq
        · rw [hcall]
          exact Call.kept_close hop
        · cases x with
          | none => rfl
          | some other => exact Call.kept_close (hx other rfl).1
    · refine .inr ⟨hovertakes.closed hdetached.closed, hovertakes.stored hdetached.stored,
        hdetached.table.trans hovertakes.table.symm, forall_update ?_ ?_⟩
      · exact fun other hother hne => (hne (hx other hother).1).elim
      · intro q other hq _ hother
        refine (hdetached.threads q other hq hother).imp ?_ ?_
        · exact fun hsame => ⟨hsame.1, hsame.2.mono hovertakes.rehashing⟩
        · exact fun hcounts => ⟨hcounts.1, hovertakes.rehashing hcounts.2.1, hcounts.2.2⟩

theorem Inv.step (h : Inv c s) {a : Action n} {next : State n} (ha : Undisturbed s a)
    (hstep : s.step c a = some next) : Inv c next := by
  unfold State.step at hstep
  split at hstep
  · rename_i op hidle hbegins
    cases hstep
    exact h.begin hidle op a.order a.clock
  · rename_i call hcall hbegins
    rcases Option.map_eq_some_iff.mp hstep with ⟨⟨sh, step⟩, hadvance, rfl⟩
    unfold Undisturbed at ha
    rw [hcall, Option.map_some] at ha
    by_cases hop : call.op = .close
    · simp only [Call.advance, hop] at hadvance
      refine h.close hcall hop (fun hstage => ?_) hadvance
      rw [hstage] at ha
      exact ha
    · rcases h.erased with ⟨t, ht, herased | hdetached, hreturned⟩
      · have hkept := call.advance_kept hop herased.sound
          (herased.inRange _ call hcall hop) (fun _ _ _ _ hstage => by
            rw [hstage] at ha
            exact ha) hadvance
        exact h.advance_erased ht herased hreturned hcall hop hkept hadvance
      · exact h.advance_detached ht hdetached hreturned hcall hop hadvance
  · cases hstep

end Erasure

/-! ## Reachable caches -/

def CursorInRange (migration : Option Migration) : Prop :=
  ∀ m, migration = some m → m.rehashIdx < 2 ^ m.old.bits

section Reachable

variable {c next : Cache}

theorem always_oldRelation : OldRelation fun _ _ => True where
  refl := fun _ => trivial
  get := fun _ _ _ _ => trivial
  del := fun _ _ => trivial
  cleanup := fun _ _ => trivial
  swapPolicy := fun _ _ _ => trivial
  extract := fun _ => trivial
  trans := fun _ _ => trivial

theorem CursorInRange.apply (h : CursorInRange c.migration) {a : CacheAction}
    (hstep : c.apply a = some next) : CursorInRange next.migration := by
  intro later hlater
  rcases always_oldRelation.effect (Cache.apply_effect hstep) with
    hchanges | ⟨-, hstarted, -⟩
  · rcases hchanges later hlater with ⟨m, hm, hrelated⟩
    exact hrelated.cursor (h m hm)
  · cases hstarted.symm.trans hlater
    exact Nat.two_pow_pos _

theorem cursorInRange_of_reachable (hreach : store.Reachable c) : CursorInRange c.migration := by
  refine hreach.invariant (fun c => CursorInRange c.migration) ?_ ?_
  · rintro c ⟨opts, hnew⟩
    rw [(Cache.new_ok hnew).2.2]
    exact nofun
  · exact fun c a next h _ hstep => h.apply hstep

end Reachable

/-! ## Safety -/

theorem Inv.init {c : Cache} (n : ℕ) (h : CursorInRange c.migration) :
    Inv c (⟨.of c, fun _ => none, []⟩ : State n) := by
  have ht : WithoutClose c (⟨.of c, fun _ => none, []⟩ : State n) := .init rfl
  refine ⟨fun _ _ hnone => (nomatch hnone), _, ht, ?_, nofun⟩
  cases hclosed : c.closed with
  | true =>
    exact .inr ⟨hclosed, by simp [Shared.of, hclosed], rfl, fun _ _ hnone => nomatch hnone⟩
  | false =>
    refine .inl ⟨⟨by simp [Shared.of, hclosed], ?_⟩, fun _ _ hnone => (nomatch hnone), ?_,
      fun _ => rfl⟩
    · cases hmigration : c.migration with
      | none => simp [Shared.of, hmigration]
      | some m => simpa [Shared.of, hmigration] using h m hmigration
    · simp [Shared.of, Shared.unclosed, hclosed]

def act {n : ℕ} (p : Fin n) (begins : Option Op) : Action n := ⟨p, begins, .asStored, still 1⟩

end MCache.Store.Closing

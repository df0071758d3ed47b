import Mathlib.Logic.Relation
import Mathlib.Tactic

/-!
# Labelled transition systems with a restriction on the steps

A step function is partial: an action that is not enabled returns `none`.
Every source of nondeterminism (which message arrives, which goroutine runs,
in which order a map is walked) is part of the action.  `Reachable` takes a
predicate on steps, so that one definition covers the unrestricted runs and
the runs all of whose steps meet a condition.
-/

namespace MCache

structure TransitionSystem (σ α : Type*) where
  init : σ → Prop
  step : σ → α → Option σ

namespace TransitionSystem

variable {σ α : Type*} {T : TransitionSystem σ α}
variable {s final : σ} {allowed : σ → α → Prop} {actions : List α}

inductive ReachableBy (T : TransitionSystem σ α) (allowed : σ → α → Prop) : σ → Prop
  | init {s : σ} (hinit : T.init s) : ReachableBy T allowed s
  | step {s next : σ} {a : α} (hreach : ReachableBy T allowed s)
      (hallowed : allowed s a) (hstep : T.step s a = some next) :
      ReachableBy T allowed next

def Reachable (T : TransitionSystem σ α) : σ → Prop := T.ReachableBy fun _ _ => True

def runBy (T : TransitionSystem σ α) (allowed : σ → α → Prop)
    [∀ s a, Decidable (allowed s a)] : σ → List α → Option σ
  | s, [] => some s
  | s, a :: rest =>
    if allowed s a then
      (T.step s a).bind fun next => T.runBy allowed next rest
    else none

def runFrom (T : TransitionSystem σ α) : σ → List α → Option σ := T.runBy fun _ _ => True

def startingIn (T : TransitionSystem σ α) (s : σ) : TransitionSystem σ α :=
  { T with init := fun start => start = s }

def restrict (T : TransitionSystem σ α) (p : σ → Prop) : TransitionSystem σ α :=
  { T with init := fun s => T.init s ∧ p s }

theorem Reachable.next {next : σ} {a : α} (hreach : T.Reachable s)
    (hstep : T.step s a = some next) : T.Reachable next :=
  .step hreach trivial hstep

theorem ReachableBy.invariant (hreach : T.ReachableBy allowed s) (inv : σ → Prop)
    (hinit : ∀ s, T.init s → inv s)
    (hpreserved : ∀ s a next, inv s → allowed s a → T.step s a = some next → inv next) :
    inv s := by
  induction hreach with
  | init h => exact hinit _ h
  | step _ hallowed hstep ih => exact hpreserved _ _ _ ih hallowed hstep

theorem ReachableBy.reachable (hreach : T.ReachableBy allowed s) : T.Reachable s :=
  hreach.invariant _ (fun _ => .init) fun _ _ _ hs _ hstep => Reachable.next hs hstep

theorem ReachableBy.runBy [∀ s a, Decidable (allowed s a)]
    (hreach : T.ReachableBy allowed s) (hrun : T.runBy allowed s actions = some final) :
    T.ReachableBy allowed final := by
  induction actions generalizing s with
  | nil =>
    simp only [TransitionSystem.runBy, Option.some.injEq] at hrun
    exact hrun ▸ hreach
  | cons a rest ih =>
    simp only [TransitionSystem.runBy] at hrun
    split at hrun
    · rename_i hallowed
      obtain ⟨next, hstep, hrest⟩ := Option.bind_eq_some_iff.mp hrun
      exact ih (.step hreach hallowed hstep) hrest
    · cases hrun

theorem runFrom_of_runBy [∀ s a, Decidable (allowed s a)]
    (hrun : T.runBy allowed s actions = some final) :
    T.runFrom s actions = some final := by
  induction actions generalizing s with
  | nil => exact hrun
  | cons a rest ih =>
    simp only [TransitionSystem.runBy] at hrun
    split at hrun
    · obtain ⟨next, hstep, hrest⟩ := Option.bind_eq_some_iff.mp hrun
      simp only [runFrom, TransitionSystem.runBy, if_true, hstep, Option.bind_some]
      exact ih hrest
    · cases hrun

theorem exists_reachableBy [∀ s a, Decidable (allowed s a)] {β : Type*} {f : σ → β}
    {value : β} (hinit : T.init s)
    (hrun : (T.runBy allowed s actions).map f = some value) :
    ∃ final, T.ReachableBy allowed final ∧ f final = value := by
  obtain ⟨final, hfinal, hvalue⟩ := Option.map_eq_some_iff.mp hrun
  exact ⟨final, (ReachableBy.init hinit).runBy hfinal, hvalue⟩

theorem along_iff_of_breaks [∀ s a, Decidable (allowed s a)] {inv good : σ → Prop}
    (hgood : ∀ s, inv s → good s)
    (hkeeps : ∀ s a next, inv s → allowed s a → T.step s a = some next → inv next)
    (hbreaks : ∀ s a next, inv s → ¬ allowed s a → T.step s a = some next → ¬ good next)
    (hinv : inv s) (hrun : T.runFrom s actions = some final) :
    (∀ before, before <+: actions → ∀ t, T.runFrom s before = some t → good t) ↔
      T.runBy allowed s actions = some final := by
  induction actions generalizing s with
  | nil =>
    simp only [runFrom, TransitionSystem.runBy, Option.some.injEq] at hrun ⊢
    refine ⟨fun _ => hrun, fun _ before hbefore t ht => ?_⟩
    cases List.prefix_nil.mp hbefore
    cases ht
    exact hgood s hinv
  | cons a rest ih =>
    simp only [runFrom, TransitionSystem.runBy, if_true] at hrun
    obtain ⟨next, hstep, hrest⟩ := Option.bind_eq_some_iff.mp hrun
    have hrunFrom : ∀ before, T.runFrom s (a :: before) = T.runFrom next before := by
      intro before
      simp only [runFrom, TransitionSystem.runBy, if_true, hstep, Option.bind_some]
    simp only [TransitionSystem.runBy, hstep, Option.bind_some]
    constructor
    · intro halong
      have hallowed : allowed s a := by
        by_contra hrefused
        refine hbreaks s a next hinv hrefused hstep (halong [a] ⟨rest, rfl⟩ next ?_)
        rw [hrunFrom]
        rfl
      rw [if_pos hallowed]
      refine (ih (hkeeps s a next hinv hallowed hstep) hrest).mp fun before hbefore t ht => ?_
      exact halong (a :: before) (List.prefix_cons_inj a |>.mpr hbefore) t
        ((hrunFrom before).trans ht)
    · intro hallowed
      split_ifs at hallowed with ha
      intro before hbefore t ht
      cases before with
      | nil =>
        cases ht
        exact hgood s hinv
      | cons b before =>
        obtain ⟨rfl, hshorter⟩ := List.cons_prefix_cons.mp hbefore
        rw [hrunFrom] at ht
        exact (ih (hkeeps s b next hinv ha hstep) hrest).mpr hallowed before hshorter t ht

theorem along_iff [∀ s a, Decidable (allowed s a)] {inv : σ → Prop}
    (hiff : ∀ s a next, inv s → T.step s a = some next → (inv next ↔ allowed s a))
    (hinv : inv s) (hrun : T.runFrom s actions = some final) :
    (∀ before, before <+: actions → ∀ t, T.runFrom s before = some t → inv t) ↔
      T.runBy allowed s actions = some final :=
  along_iff_of_breaks (fun _ h => h)
    (fun s a next h hallowed hstep => (hiff s a next h hstep).mpr hallowed)
    (fun s a next h hrefused hstep hnext => hrefused ((hiff s a next h hstep).mp hnext))
    hinv hrun

end TransitionSystem

section Threads

variable {ι β : Type*} [DecidableEq ι] {P : ι → β → Prop} {threads : ι → Option β}
  {p : ι}

theorem update_eq_some {q : ι} {x : Option β} {b : β} (h : Function.update threads p x q = some b) :
    q = p ∧ x = some b ∨ q ≠ p ∧ threads q = some b := by
  by_cases hq : q = p
  · subst hq
    rw [Function.update_self] at h
    exact .inl ⟨rfl, h⟩
  · rw [Function.update_of_ne hq] at h
    exact .inr ⟨hq, h⟩

theorem forall_update {x : Option β} (hx : ∀ b, x = some b → P p b)
    (hothers : ∀ q b, threads q = some b → q ≠ p → P q b) :
    ∀ q b, Function.update threads p x q = some b → P q b := by
  intro q b hb
  rcases update_eq_some hb with ⟨hq, hnew⟩ | ⟨hq, hold⟩
  · exact hq ▸ hx b hnew
  · exact hothers q b hold hq

theorem forall_update_none (hothers : ∀ q b, threads q = some b → q ≠ p → P q b) :
    ∀ q b, Function.update threads p none q = some b → P q b :=
  forall_update (fun _ hnone => nomatch hnone) hothers

end Threads

end MCache

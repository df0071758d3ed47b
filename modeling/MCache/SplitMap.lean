import Mathlib.Data.Set.Card
import Mathlib.Logic.Function.Basic
import Mathlib.Tactic

/-!
# Maps split over two tables

A partial map may be kept in two tables, a new one that is read first and an
old one whose entries move to the new one over time.  The map is then the
overlay of the two.  Values may also go out of date; `SameLive` compares two
maps on the values that have not, so that dropping a dead value is no change.
-/

namespace MCache

variable {K V : Type*}

def SameLive (dead : V → Prop) (f g : K → Option V) : Prop :=
  ∀ k v, ¬ dead v → (f k = some v ↔ g k = some v)

section Live

variable {dead : V → Prop} {f g h : K → Option V}

theorem SameLive.refl (dead : V → Prop) (f : K → Option V) : SameLive dead f f :=
  fun _ _ _ => Iff.rfl

theorem SameLive.symm (hfg : SameLive dead f g) : SameLive dead g f :=
  fun k v hv => (hfg k v hv).symm

theorem SameLive.trans (hfg : SameLive dead f g) (hgh : SameLive dead g h) : SameLive dead f h :=
  fun k v hv => (hfg k v hv).trans (hgh k v hv)

theorem SameLive.mono {later : V → Prop} (hfg : SameLive dead f g)
    (hlater : ∀ v, dead v → later v) : SameLive later f g :=
  fun k v hv => hfg k v fun hdead => hv (hlater v hdead)

theorem SameLive.update [DecidableEq K] (hfg : SameLive dead f g) (k : K) (o : Option V) :
    SameLive dead (Function.update f k o) (Function.update g k o) := by
  intro l v hv
  by_cases hl : l = k
  · subst l
    simp only [Function.update_self]
  · simpa only [Function.update_of_ne hl] using hfg l v hv

theorem SameLive.map {W : Type*} {gone : W → Prop} (hfg : SameLive dead f g)
    (b : V → W) (hgone : ∀ v, dead v → gone (b v)) :
    SameLive gone (fun k => (f k).map b) (fun k => (g k).map b) := by
  intro k w hw
  simp only [Option.map_eq_some_iff]
  constructor
  · rintro ⟨v, hv, rfl⟩
    exact ⟨v, (hfg k v fun hdead => hw (hgone v hdead)).mp hv, rfl⟩
  · rintro ⟨v, hv, rfl⟩
    exact ⟨v, (hfg k v fun hdead => hw (hgone v hdead)).mpr hv, rfl⟩

end Live

def Prunes (dead : V → Prop) (f g : K → Option V) : Prop :=
  ∀ k, g k = f k ∨ g k = none ∧ ∀ v, f k = some v → dead v

section Prunes

variable {dead : V → Prop} {f g : K → Option V}

theorem Prunes.refl (dead : V → Prop) (f : K → Option V) : Prunes dead f f := fun _ => .inl rfl

theorem Prunes.some_of_some (h : Prunes dead f g) {k : K} {v : V}
    (hg : g k = some v) : f k = some v := by
  rcases h k with heq | ⟨hnone, -⟩
  · rw [← heq, hg]
  · rw [hnone] at hg
    cases hg

theorem Prunes.sameLive (h : Prunes dead f g) : SameLive dead f g := by
  intro k v hv
  rcases h k with heq | ⟨hnone, hdead⟩
  · rw [heq]
  · rw [hnone]
    exact ⟨fun hf => absurd (hdead v hf) hv, nofun⟩

end Prunes

def overlay (f g : K → Option V) : K → Option V := fun k => f k <|> g k

def Apart (f g : K → Option V) : Prop := ∀ k, f k = none ∨ g k = none

def Migrates (dead : V → Prop) (f g f' g' : K → Option V) : Prop := ∀ k, f' k = f k ∧ g' k = g k ∨
    g' k = none ∧ f k = none ∧ f' k = g k ∨
    g' k = none ∧ f' k = f k ∧ ∀ v, g k = some v → dead v

section Tables

variable {dead : V → Prop} {f g f' g' f'' g'' : K → Option V}

theorem overlay_eq_some (hapart : Apart f g) {k : K} {v : V} :
    overlay f g k = some v ↔ f k = some v ∨ g k = some v := by
  unfold overlay
  rcases hapart k with hnone | hnone
  · simp [hnone]
  · cases hf : f k <;> simp [hnone]

theorem overlay_none_right : overlay f (fun _ => none) = f := by
  funext k
  unfold overlay
  cases f k <;> rfl

theorem overlay_none_left : overlay (fun _ => none) f = f := by
  funext k
  rfl

theorem Migrates.refl (dead : V → Prop) (f g : K → Option V) : Migrates dead f g f g :=
  fun _ => .inl ⟨rfl, rfl⟩

theorem Migrates.trans (h : Migrates dead f g f' g')
    (h' : Migrates dead f' g' f'' g'') : Migrates dead f g f'' g'' := by
  intro k
  rcases h k with ⟨hf, hg⟩ | ⟨hg, hfree, hf⟩ | ⟨hg, hf, hdead⟩
  · simpa only [hf, hg] using h' k
  · right; left
    rcases h' k with ⟨hf', hg'⟩ | ⟨hg', hfree', hf'⟩ | ⟨hg', hf', -⟩
    · exact ⟨hg'.trans hg, hfree, hf'.trans hf⟩
    · refine ⟨hg', hfree, ?_⟩
      rw [hf', hg, ← hf, hfree']
    · exact ⟨hg', hfree, hf'.trans hf⟩
  · right; right
    rcases h' k with ⟨hf', hg'⟩ | ⟨hg', hfree', hf'⟩ | ⟨hg', hf', -⟩
    · exact ⟨hg'.trans hg, hf'.trans hf, hdead⟩
    · refine ⟨hg', ?_, hdead⟩
      rw [hf', hg, ← hf, hfree']
    · exact ⟨hg', hf'.trans hf, hdead⟩

theorem Migrates.apart (h : Migrates dead f g f' g') (hapart : Apart f g) : Apart f' g' := by
  intro k
  rcases h k with ⟨hf, hg⟩ | ⟨hg, -, -⟩ | ⟨hg, -, -⟩
  · rw [hf, hg]
    exact hapart k
  · exact .inr hg
  · exact .inr hg

theorem Migrates.sameLive (h : Migrates dead f g f' g') (hapart : Apart f g) :
    SameLive dead (overlay f g) (overlay f' g') := by
  intro k v hv
  rw [overlay_eq_some hapart, overlay_eq_some (h.apart hapart)]
  rcases h k with ⟨hf, hg⟩ | ⟨hg, hfree, hf⟩ | ⟨hg, hf, hdead⟩
  · rw [hf, hg]
  · simp [hg, hfree, hf]
  · have hnot : g k ≠ some v := fun hsome => hv (hdead v hsome)
    simp [hg, hf, hnot]

theorem Apart.prunes (hapart : Apart f g) (hf : Prunes dead f f')
    (hg : Prunes dead g g') : Apart f' g' := by
  intro k
  rcases hapart k with hnone | hnone
  · left
    rcases hf k with heq | ⟨hnone', -⟩
    · rw [heq, hnone]
    · exact hnone'
  · right
    rcases hg k with heq | ⟨hnone', -⟩
    · rw [heq, hnone]
    · exact hnone'

theorem SameLive.overlay (hapart : Apart f g) (hf : Prunes dead f f') (hg : Prunes dead g g') :
    SameLive dead (overlay f g) (overlay f' g') := by
  intro k v hv
  rw [overlay_eq_some hapart, overlay_eq_some (hapart.prunes hf hg),
    hf.sameLive k v hv, hg.sameLive k v hv]

theorem Migrates.within {p p' : K → Option V} (inside : K → Prop) (h : Migrates dead f p f' p')
    (hinside : ∀ k, inside k → g k = p k ∧ g' k = p' k)
    (houtside : ∀ k, ¬ inside k → p k = none ∧ g' k = g k) :
    Migrates dead f g f' g' := by
  intro k
  by_cases hk : inside k
  · rcases hinside k hk with ⟨hg, hg'⟩
    rw [hg, hg']
    exact h k
  · rcases houtside k hk with ⟨hp, hg'⟩
    left
    rcases h k with ⟨hf, -⟩ | ⟨-, hfree, hf⟩ | ⟨-, hf, -⟩
    · exact ⟨hf, hg'⟩
    · exact ⟨by rw [hf, hp, hfree], hg'⟩
    · exact ⟨hf, hg'⟩

theorem Migrates.forall_new {P : V → Prop} (h : Migrates dead f g f' g')
    (hf : ∀ k v, f k = some v → P v) (hg : ∀ k v, g k = some v → P v) :
    ∀ k v, f' k = some v → P v := by
  intro k v hv
  rcases h k with ⟨hf', -⟩ | ⟨-, -, hf'⟩ | ⟨-, hf', -⟩
  · exact hf k v (hf' ▸ hv)
  · exact hg k v (hf' ▸ hv)
  · exact hf k v (hf' ▸ hv)

theorem Apart.update_left [DecidableEq K] (hapart : Apart f g) (k : K) (o : Option V) :
    Apart (Function.update f k o) (Function.update g k none) := by
  intro l
  by_cases hl : l = k
  · subst l
    exact .inr (Function.update_self ..)
  · simpa only [Function.update_of_ne hl] using hapart l

theorem overlay_update [DecidableEq K] (f g : K → Option V) (k : K) (o : Option V) :
    overlay (Function.update f k o) (Function.update g k none) =
      Function.update (overlay f g) k o := by
  funext l
  unfold overlay
  by_cases hl : l = k
  · subst l
    simp only [Function.update_self]
    cases o <;> rfl
  · simp only [Function.update_of_ne hl]

end Tables

end MCache

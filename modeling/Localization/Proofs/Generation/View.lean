import Localization.Generation.Crew
import Localization.Proofs.Cache.Resolving
import Mathlib.Algebra.BigOperators.Group.List.Basic

namespace Localization

namespace Cache

instance : Zero Stats := ⟨⟨0, 0, 0, 0⟩⟩

instance : Add Stats :=
  ⟨fun a b => ⟨a.entries + b.entries, a.hits + b.hits, a.misses + b.misses,
    a.computations + b.computations⟩⟩

theorem Stats.add_def (a b : Stats) :
    a + b = ⟨a.entries + b.entries, a.hits + b.hits, a.misses + b.misses,
      a.computations + b.computations⟩ := rfl

theorem Stats.zero_def : (0 : Stats) = ⟨0, 0, 0, 0⟩ := rfl

instance : AddCommMonoid Stats where
  add_assoc a b c := by simp only [Stats.add_def, Nat.add_assoc]
  zero_add a := by simp only [Stats.add_def, Stats.zero_def, Nat.zero_add]
  add_zero a := by simp only [Stats.add_def, Stats.zero_def, Nat.add_zero]
  add_comm a b := by simp only [Stats.add_def, Nat.add_comm]
  nsmul := nsmulRec

theorem stats_hit (c : Cache) : c.hit.stats = c.stats + ⟨0, 1, 0, 0⟩ := rfl

theorem stats_miss (c : Cache) : c.miss.stats = c.stats + ⟨0, 0, 1, 0⟩ := rfl

theorem stats_store (c : Cache) (key : Key) (resolution : Resolution) :
    (c.store key resolution).2.stats = c.stats + ⟨1, 0, 0, 1⟩ := rfl

end Cache

namespace Generation

/-- What the interfaces' shared state shows to the work on one of them. -/
@[ext]
structure View where
  resolution? : Locale → Option Resolution
  IsMarked : String → Prop

namespace View

def keep (v : View) (locale : Locale) (resolution : Resolution) : View :=
  { v with
    resolution? := fun other =>
      if other = locale then some resolution else v.resolution? other }

def mark (v : View) (config : Config) (className : String) : View :=
  { v with
    IsMarked := fun other =>
      config.reuseEquivalentArtifacts ∧ other = className ∨ v.IsMarked other }

end View

namespace Shared

variable {σ : Type} (s : Shared σ) (i : Interface)

def view : View where
  resolution? locale := (s.cache.get? { interface := i, locale }).map (·.resolution)
  IsMarked className := (i, className) ∈ s.classes

theorem view_store_self (locale : Locale) (resolution : Resolution) :
    (s.withCache (s.cache.store { interface := i, locale } resolution).2).view i =
      (s.view i).keep locale resolution := by
  refine View.ext (funext fun other => ?_) rfl
  by_cases hlocale : other = locale
  · subst hlocale
    simp only [view, withCache, View.keep, Cache.get?_store_self, if_true]
    rfl
  · have hkey : ({ interface := i, locale := other } : Cache.Key) ≠ { interface := i, locale } := by
      simpa using hlocale
    simp only [view, withCache, View.keep, Cache.get?_store_of_ne _ hkey, if_neg hlocale]

theorem view_store_of_ne {j : Interface} (hne : i ≠ j) (locale : Locale) (resolution : Resolution) :
    (s.withCache (s.cache.store { interface := j, locale } resolution).2).view i = s.view i := by
  refine View.ext (funext fun other => ?_) rfl
  have hkey : ({ interface := i, locale := other } : Cache.Key) ≠ { interface := j, locale } := by
    simp [hne]
  simp only [view, withCache, Cache.get?_store_of_ne _ hkey]

theorem view_mark_self (config : Config) (className : String) :
    (s.mark config i className).view i = (s.view i).mark config className := by
  refine View.ext rfl (funext fun other => ?_)
  by_cases hreuse : config.reuseEquivalentArtifacts <;> simp [view, mark, View.mark, hreuse]

theorem view_mark_of_ne {j : Interface} (hne : i ≠ j) (config : Config) (className : String) :
    (s.mark config j className).view i = s.view i := by
  refine View.ext rfl (funext fun other => ?_)
  by_cases hreuse : config.reuseEquivalentArtifacts <;> simp [view, mark, hreuse, hne]

end Shared

end Generation

end Localization

import Localization.Locale

namespace Localization.Locale

/-- Root alone has no parent. -/
theorem parent?_eq_none_iff (t : Locale) : t.parent? = none ↔ t = root := by
  obtain ⟨language, script, region, variant⟩ := t
  by_cases hvariant : variant = ""
  · by_cases hregion : region = ""
    · by_cases hscript : script = "" <;> simp [parent?, root, hvariant, hregion, hscript]
    · simp [parent?, root, hvariant, hregion]
  · simp [parent?, root, hvariant]

theorem ancestors_of_no_parent {t : Locale} (h : t.parent? = none) (n : Nat) :
    ancestors n t = [] := by
  cases n <;> simp [ancestors, h]

/-- A chain goes on with the chain of the parent. -/
theorem chain_of_parent? {t p : Locale} (h : t.parent? = some p) : t.chain = t :: p.chain := by
  simp [chain, specificity_of_parent? h, ancestors, h]

theorem chain_of_no_parent {t : Locale} (h : t.parent? = none) : t.chain = [t] := by
  simp [chain, ancestors_of_no_parent h]

/-- What holds of root and is handed down from parents holds of every locale. -/
@[elab_as_elim]
theorem induction_on_parent {motive : Locale → Prop} (t : Locale) (root : motive root)
    (step : ∀ t p, t.parent? = some p → motive p → motive t) : motive t := by
  cases hparent : t.parent? with
  | none => exact (parent?_eq_none_iff t).1 hparent ▸ root
  | some p =>
    have hless := specificity_of_parent? hparent
    exact step t p hparent (induction_on_parent p root step)
termination_by t.specificity
decreasing_by omega

/-- Every chain ends in root. -/
theorem root_mem_chain (t : Locale) : root ∈ t.chain := by
  induction t using induction_on_parent with
  | root => exact List.mem_cons_self
  | step t p hparent ih =>
    rw [chain_of_parent? hparent]
    exact List.mem_cons_of_mem t ih

theorem specificity_lt_of_mem_chain {t u : Locale} (h : u ∈ t.chain) (hne : u ≠ t) :
    u.specificity < t.specificity := by
  induction t using induction_on_parent with
  | root => exact absurd (List.mem_singleton.1 h) hne
  | step t p hparent ih =>
    rw [chain_of_parent? hparent] at h
    have hmem : u ∈ p.chain := (List.mem_cons.1 h).resolve_left hne
    have hparentLess := specificity_of_parent? hparent
    by_cases hp : u = p
    · rw [hp]
      omega
    · have hless := ih hmem hp
      omega

/-- No locale comes twice in a chain. -/
theorem nodup_chain (t : Locale) : t.chain.Nodup := by
  induction t using induction_on_parent with
  | root => simp [chain_of_no_parent ((parent?_eq_none_iff root).2 rfl)]
  | step t p hparent ih =>
    rw [chain_of_parent? hparent, List.nodup_cons]
    refine ⟨fun hmem => ?_, ih⟩
    have hless := specificity_of_parent? hparent
    by_cases heq : t = p
    · rw [heq] at hless
      omega
    · have hlt := specificity_lt_of_mem_chain hmem heq
      omega

/-- A locale comes after those that it falls back to. -/
theorem compare_lt_of_mem_chain {t u : Locale} (h : u ∈ t.chain) (hne : u ≠ t) :
    compare u t = .lt := by
  have hless : compareOn specificity u t = .lt :=
    Nat.compare_eq_lt.2 (specificity_lt_of_mem_chain h hne)
  show compareLex (compareOn specificity) _ u t = .lt
  rw [compareLex, hless]
  rfl

end Localization.Locale

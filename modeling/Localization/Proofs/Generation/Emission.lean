import Localization.Proofs.Generation.Reuse

namespace Localization.Generation

/-- What is kept of an artifact that is handed to the emitter, to tell that its class was. -/
def Artifact.mark (a : Artifact) : Interface × String :=
  (a.interface, a.className)

theorem Task.Owned.interface_eq {t : Task} (h : t.Owned) {a : Artifact} (ha : a ∈ t.stage.pending) :
    a.interface = t.job.interface := by
  obtain ⟨job, report, stage⟩ := t
  cases stage with
  | emitting methods artifact rest =>
    obtain rfl := List.mem_singleton.1 ha
    exact h _ _ _ rfl
  | _ => cases ha

theorem Task.isInHand_of_mem_pending {t : Task} {a : Artifact} (ha : a ∈ t.stage.pending) :
    t.isInHand := by
  obtain ⟨job, report, stage⟩ := t
  cases stage with
  | emitting => rfl
  | _ => cases ha

namespace Moves

variable {σ : Type} {p : Pass} {oracle : Oracle} {emitter : Emitter σ} {s s' : Shared σ}
  {t t' : Task} {sent : List Delivery}

/-- A step makes at most one more artifact wait for the emitter. Under reuse, its class is marked
then and was not before. -/
theorem exists_fresh (h : Moves p oracle emitter s t s' t' sent)
    (hreuse : p.config.reuseEquivalentArtifacts) :
    ∃ fresh? : Option Artifact,
      sent.map (·.artifact) ++ t'.stage.pending = t.stage.pending ++ fresh?.toList ∧
        s'.classes = fresh?.toList.map Artifact.mark ++ s.classes ∧
        ∀ a ∈ fresh?, a.mark ∉ s.classes := by
  cases h with
  | @mark job _ _ _ _ _ artifact hbind hmark =>
    obtain ⟨-, hinterface, -⟩ := bindMethods_eq_ok_iff.1 hbind
    have hmarked : artifact.mark = (job.interface, artifact.className) := by
      rw [Artifact.mark, hinterface]
    refine ⟨some artifact, rfl, ?_, ?_⟩
    · simp [Shared.mark, hreuse, hmarked]
    · simpa [hmarked] using hmark hreuse
  | _ => exact ⟨none, rfl, rfl, by simp⟩

theorem of_mem_reused (h : Moves p oracle emitter s t s' t' sent) {e : Locale × String}
    (he : e ∈ t'.report.reused) :
    e ∈ t.report.reused ∨ t.isInHand ∧ (t.job.interface, e.2) ∈ s.classes := by
  cases h with
  | reuse hbind hreuse hmark =>
    rcases List.mem_append.1 he with he | he
    · exact .inl he
    · obtain rfl := List.mem_singleton.1 he
      exact .inr ⟨rfl, hmark⟩
  | _ => exact .inl he

/-- While an artifact waits for the emitter, the task reuses nothing. -/
theorem of_mem_pending (h : Moves p oracle emitter s t s' t' sent)
    (hreuse : p.config.reuseEquivalentArtifacts) {a : Artifact} (ha : a ∈ t'.stage.pending) :
    t'.report.reused = t.report.reused ∧ (t.job.interface, a.className) ∉ s.classes := by
  cases h with
  | mark hbind hmark =>
    obtain rfl := List.mem_singleton.1 ha
    exact ⟨rfl, hmark hreuse⟩
  | _ => cases ha

/-- A task whose artifact the emitter rejects is finished with the emitter's error. -/
theorem of_rejected (h : Moves p oracle emitter s t s' t' sent) (howned : t.Owned) {a : Artifact}
    {error : Error} (hmem : ⟨a, .error error⟩ ∈ sent) :
    a ∈ t.stage.pending ∧ t'.isFinished ∧ t'.job.interface = a.interface ∧
      t'.report.error? = some error ∧ t'.report.reused = t.report.reused := by
  cases h with
  | reject hemit =>
    cases List.mem_singleton.1 hmem
    exact ⟨List.mem_singleton_self _, rfl, (howned _ _ _ rfl).symm, rfl, rfl⟩
  | deliver hemit => cases List.mem_singleton.1 hmem
  | _ => cases hmem

end Moves

namespace Crew

variable {σ : Type} {p : Pass} {jobs : List Job} {oracle : Oracle} {emitter : Emitter σ} {kept : σ}
  {events : List Event} {c : Crew σ}

theorem mem_middle {before after : List Task} {t u : Task} :
    u ∈ before ++ t :: after ↔ u = t ∨ u ∈ before ++ after :=
  List.perm_middle.mem_iff.trans List.mem_cons

/-- No worker has two tasks in hand. -/
theorem Run.countP_isInHand_le (h : Run p jobs emitter kept events c) :
    c.tasks.countP Task.isInHand ≤ p.config.workers := by
  induction h with
  | start =>
    have hnone : (Crew.start p jobs kept).tasks.countP Task.isInHand = 0 := by
      rw [List.countP_eq_zero]
      intro t ht
      obtain ⟨job, -, rfl⟩ := List.mem_map.1 ht
      exact Bool.false_ne_true
    exact hnone ▸ Nat.zero_le _
  | @move _ _ _ t t' _ _ before after oracle _ hmove hfree hlock ih =>
    simp only [List.countP_append, List.countP_cons] at ih hfree ⊢
    have hopen := hmove.isFinished_eq_false
    cases hwaiting : t.isWaiting with
    | true =>
      have hroom := hfree hwaiting
      split <;> omega
    | false =>
      have hinHand : t.isInHand := by simp [Task.isInHand, hwaiting, hopen]
      rw [if_pos hinHand] at ih
      split <;> omega

/-- The artifacts that the emitter was given or is about to get. -/
def handedOver (c : Crew σ) : List Artifact :=
  c.deliveries.map (·.artifact) ++ c.tasks.flatMap (·.stage.pending)

/-- The marks of a run under reuse are those of what is handed over, each of one artifact. What a
task reuses is marked, and not by the task's own artifact that waits for the emitter or that the
emitter rejected. -/
structure Marked (c : Crew σ) : Prop where
  owned : ∀ t ∈ c.tasks, t.Owned
  perm : (c.handedOver.map Artifact.mark).Perm c.shared.classes
  nodup : c.shared.classes.Nodup
  reused : ∀ t ∈ c.tasks, ∀ e ∈ t.report.reused, (t.job.interface, e.2) ∈ c.shared.classes
  pending : ∀ t ∈ c.tasks, ∀ a ∈ t.stage.pending, ∀ locale, (locale, a.className) ∉ t.report.reused
  rejected : ∀ a error, ⟨a, .error error⟩ ∈ c.deliveries → ∃ t ∈ c.tasks, t.isFinished ∧
    t.job.interface = a.interface ∧ t.report.error? = some error ∧
      ∀ locale, (locale, a.className) ∉ t.report.reused

theorem marked_start (p : Pass) (jobs : List Job) (kept : σ) : (start p jobs kept).Marked where
  owned t ht := by
    obtain ⟨job, -, rfl⟩ := List.mem_map.1 ht
    exact Task.owned_ofJob job
  perm := by simp [handedOver, start, Task.ofJob, Stage.pending, List.flatMap_map]
  nodup := List.nodup_nil
  reused t ht e he := by
    obtain ⟨job, -, rfl⟩ := List.mem_map.1 ht
    cases he
  pending t ht a ha := by
    obtain ⟨job, -, rfl⟩ := List.mem_map.1 ht
    cases ha
  rejected a error hmem := by cases hmem

/-- What is handed over in a step comes to what was handed over before. -/
theorem perm_handedOver (before after : List Task) (s s' : Shared σ) {t t' : Task}
    (deliveries : List Delivery) {sent : List Delivery} {fresh : List Artifact}
    (h : sent.map (·.artifact) ++ t'.stage.pending = t.stage.pending ++ fresh) :
    (handedOver ⟨before ++ t' :: after, s', deliveries ++ sent⟩).Perm
      (fresh ++ handedOver ⟨before ++ t :: after, s, deliveries⟩) := by
  rw [List.perm_iff_count]
  intro a
  have hcount := congrArg (List.count a) h
  simp only [List.count_append] at hcount
  simp only [handedOver, List.map_append, List.flatMap_append, List.flatMap_cons, List.count_append]
  omega

/-- A task that is not the one that takes the step stays as it is. -/
theorem mem_of_ne {before after : List Task} {t t' u : Task} (hu : u ∈ before ++ t :: after)
    (hne : u ≠ t) : u ∈ before ++ t' :: after :=
  mem_middle.2 (.inr ((mem_middle.1 hu).resolve_left hne))

theorem forall_mem_middle {before after : List Task} {t : Task} {P : Task → Prop} :
    (∀ u ∈ before ++ t :: after, P u) ↔ P t ∧ ∀ u ∈ before ++ after, P u := by
  simp only [mem_middle, forall_eq_or_imp]

theorem Marked.move {s s' : Shared σ} {t t' : Task} {deliveries sent : List Delivery}
    {before after : List Task} {oracle : Oracle}
    (h : Marked ⟨before ++ t :: after, s, deliveries⟩)
    (hreuse : p.config.reuseEquivalentArtifacts) (hmove : Moves p oracle emitter s t s' t' sent) :
    Marked ⟨before ++ t' :: after, s', deliveries ++ sent⟩ := by
  obtain ⟨fresh?, hfresh, hclasses, hnew⟩ := hmove.exists_fresh hreuse
  obtain ⟨howned, hothersOwned⟩ := forall_mem_middle.1 h.owned
  obtain ⟨hreused, hothersReused⟩ := forall_mem_middle.1 h.reused
  obtain ⟨hpending, hothersPending⟩ := forall_mem_middle.1 h.pending
  have hgrows : s.classes ⊆ s'.classes := by
    rw [hclasses]
    exact List.subset_append_right _ _
  refine ⟨?_, ?_, ?_, ?_, ?_, ?_⟩
  · exact forall_mem_middle.2 ⟨hmove.owned, hothersOwned⟩
  · have hperm := (perm_handedOver before after s s' deliveries hfresh).map Artifact.mark
    rw [List.map_append] at hperm
    exact hclasses ▸ hperm.trans (h.perm.append_left _)
  · rw [hclasses]
    cases fresh? with
    | none => exact h.nodup
    | some a => exact List.nodup_cons.2 ⟨hnew a rfl, h.nodup⟩
  · refine forall_mem_middle.2 ⟨fun e he => ?_, fun u hu e he => hgrows (hothersReused u hu e he)⟩
    rw [hmove.job_eq]
    rcases hmove.of_mem_reused he with he | ⟨-, hmark⟩
    · exact hgrows (hreused e he)
    · exact hgrows hmark
  · refine forall_mem_middle.2 ⟨fun a ha locale he => ?_, hothersPending⟩
    obtain ⟨hsame, hunmarked⟩ := hmove.of_mem_pending hreuse ha
    rw [hsame] at he
    exact hunmarked (hreused _ he)
  · intro a error hmem
    rcases List.mem_append.1 hmem with hmem | hmem
    · obtain ⟨u, hu, hfinished, hu'⟩ := h.rejected a error hmem
      have hne : u ≠ t := by
        rintro rfl
        simp [hmove.isFinished_eq_false] at hfinished
      exact ⟨u, mem_of_ne hu hne, hfinished, hu'⟩
    · obtain ⟨ha, hfinished, hinterface, herror, hsame⟩ := hmove.of_rejected howned hmem
      exact ⟨t', by simp, hfinished, hinterface, herror, hsame ▸ hpending a ha⟩

theorem Run.marked (h : Run p jobs emitter kept events c)
    (hreuse : p.config.reuseEquivalentArtifacts) : c.Marked := by
  induction h with
  | start => exact marked_start p jobs kept
  | move before after oracle _ hmove hfree hlock ih => exact ih.move hreuse hmove

/-- Where a class is reused before the emitter has its artifact, two workers are at it. -/
theorem Run.one_lt_workers (h : Run p jobs emitter kept events c)
    (hreuse : p.config.reuseEquivalentArtifacts) {t u : Task} (ht : t ∈ c.tasks) (hu : u ∈ c.tasks)
    (hsame : u.job.interface = t.job.interface) {a : Artifact} (ha : a ∈ u.stage.pending)
    {locale : Locale} (hreused : (locale, a.className) ∈ t.report.reused) :
    1 < p.config.workers := by
  induction h generalizing t u with
  | start =>
    obtain ⟨job, -, rfl⟩ := List.mem_map.1 hu
    cases ha
  | @move _ s s' r r' deliveries sent before after oracle hrun hmove hfree hlock ih =>
    have hmarked := hrun.marked hreuse
    have hothers : ∀ v ∈ before ++ after, v ∈ before ++ r :: after :=
      fun v hv => mem_middle.2 (.inr hv)
    have hself : r ∈ before ++ r :: after := mem_middle.2 (.inl rfl)
    rcases mem_middle.1 hu with rfl | huOther
    · -- The class was not marked before this step, so nobody reuses it yet.
      obtain ⟨hkept, hunmarked⟩ := hmove.of_mem_pending hreuse ha
      rw [hmove.job_eq] at hsame
      refine absurd ?_ hunmarked
      rcases mem_middle.1 ht with rfl | htOther
      · exact hmarked.reused r hself _ (hkept ▸ hreused)
      · rw [hsame]
        exact hmarked.reused t (hothers t htOther) _ hreused
    · have huBefore := hothers u huOther
      rcases mem_middle.1 ht with rfl | htOther
      · rw [hmove.job_eq] at hsame
        rcases hmove.of_mem_reused hreused with hbefore | ⟨hinHand, -⟩
        · exact ih hself huBefore hsame ha hbefore
        · have hbusy : 0 < (before ++ after).countP Task.isInHand :=
            List.countP_pos_iff.2 ⟨u, huOther, Task.isInHand_of_mem_pending ha⟩
          have hcount := hrun.countP_isInHand_le
          rw [List.perm_middle.countP_eq, List.countP_cons_of_pos hinHand] at hcount
          omega
      · exact ih (hothers t htOther) huBefore hsame ha hreused

theorem mem_handedOver {a : Artifact} : a ∈ c.handedOver ↔
    ⟨a, .ok ()⟩ ∈ c.deliveries ∨ (∃ error, ⟨a, .error error⟩ ∈ c.deliveries) ∨
      ∃ u ∈ c.tasks, a ∈ u.stage.pending := by
  rw [handedOver, List.mem_append, List.mem_flatMap, ← or_assoc]
  refine or_congr_left ?_
  constructor
  · intro h
    obtain ⟨⟨a, error | ⟨⟩⟩, hd, rfl⟩ := List.mem_map.1 h
    · exact .inr ⟨error, hd⟩
    · exact .inl hd
  · rintro (h | ⟨error, h⟩)
    · exact List.mem_map_of_mem h
    · exact List.mem_map_of_mem h

namespace Marked

variable {a b : Artifact}

theorem nodup_handedOver (h : c.Marked) : (c.handedOver.map Artifact.mark).Nodup :=
  h.perm.nodup_iff.2 h.nodup

theorem eq_of_mark_eq (h : c.Marked) (ha : a ∈ c.handedOver) (hb : b ∈ c.handedOver)
    (hmark : a.mark = b.mark) : a = b :=
  List.inj_on_of_nodup_map h.nodup_handedOver ha hb hmark

theorem nodup_delivered (h : c.Marked) : (c.deliveries.map (·.artifact.mark)).Nodup := by
  have hall := h.nodup_handedOver
  rw [handedOver, List.map_append, List.map_map] at hall
  exact hall.of_append_left

/-- The emitter answers once for a class. -/
theorem not_rejected_of_accepted (h : c.Marked) (haccepted : ⟨a, .ok ()⟩ ∈ c.deliveries)
    (error : Error) : ⟨a, .error error⟩ ∉ c.deliveries := by
  intro hrejected
  cases List.inj_on_of_nodup_map h.nodup_delivered haccepted hrejected rfl

theorem not_pending_of_accepted (h : c.Marked) (haccepted : ⟨a, .ok ()⟩ ∈ c.deliveries) {u : Task}
    (hu : u ∈ c.tasks) : a ∉ u.stage.pending := by
  intro hpending
  have hall := h.nodup_handedOver.of_map
  rw [handedOver] at hall
  exact List.disjoint_of_nodup_append hall (List.mem_map_of_mem haccepted)
    (List.mem_flatMap.2 ⟨u, hu, hpending⟩)

end Marked

end Crew

/-- A task stands in the way of an artifact of its interface: the emitter does not have it yet,
while another worker counts on it already, or the emitter rejected it, which was the end of the
task. The task itself does not count on it. -/
def Task.Withholds (u : Task) (p : Pass) (deliveries : List Delivery) (a : Artifact) : Prop :=
  u.job.interface = a.interface ∧ (∀ locale, (locale, a.className) ∉ u.report.reused) ∧
    (a ∈ u.stage.pending ∧ 1 < p.config.workers ∨
      ∃ error, ⟨a, .error error⟩ ∈ deliveries ∧ u.isFinished ∧ u.report.error? = some error)

namespace Crew

variable {σ : Type} {p : Pass} {jobs : List Job} {oracle : Oracle} {emitter : Emitter σ} {kept : σ}
  {events : List Event} {c : Crew σ}

theorem Marked.not_withheld (h : c.Marked) {a : Artifact}
    (haccepted : ⟨a, .ok ()⟩ ∈ c.deliveries) {u : Task} (hu : u ∈ c.tasks) :
    ¬u.Withholds p c.deliveries a := by
  rintro ⟨-, -, ⟨hpending, -⟩ | ⟨error, hrejected, -⟩⟩
  · exact h.not_pending_of_accepted haccepted hu hpending
  · exact h.not_rejected_of_accepted haccepted error hrejected

/-- Whenever a run under reuse has reported that a locale is served by a class, the class was handed
over once. The emitter has accepted it unless a task of the same interface withholds it. So it has
when no interface comes twice, and at the end of a run when it did not reject it. -/
theorem reused_class_accepted_iff (h : Run p jobs emitter kept events c)
    (hreuse : p.config.reuseEquivalentArtifacts) {t : Task} (ht : t ∈ c.tasks) {locale : Locale}
    {className : String} (hreused : (locale, className) ∈ t.report.reused) :
    ∃ a ∈ c.handedOver, a.mark = (t.job.interface, className) ∧
      (∀ b ∈ c.handedOver, b.mark = (t.job.interface, className) → b = a) ∧
      (⟨a, .ok ()⟩ ∈ c.deliveries ↔ ∀ u ∈ c.tasks, ¬u.Withholds p c.deliveries a) ∧
      (c.isFinished →
        (⟨a, .ok ()⟩ ∈ c.deliveries ↔ ∀ error, ⟨a, .error error⟩ ∉ c.deliveries)) ∧
      ((jobs.map Job.interface).Nodup → ⟨a, .ok ()⟩ ∈ c.deliveries) := by
  have hmarked := h.marked hreuse
  have hclass := hmarked.reused t ht _ hreused
  obtain ⟨a, ha, hmark⟩ := List.mem_map.1 (hmarked.perm.mem_iff.2 hclass)
  obtain ⟨hinterface, rfl⟩ := Prod.ext_iff.1 hmark
  have hiff : ⟨a, .ok ()⟩ ∈ c.deliveries ↔ ∀ u ∈ c.tasks, ¬u.Withholds p c.deliveries a := by
    refine ⟨fun haccepted u hu => hmarked.not_withheld haccepted hu, fun hnone => ?_⟩
    rcases mem_handedOver.1 ha with haccepted | ⟨error, hrejected⟩ | ⟨u, hu, hpending⟩
    · exact haccepted
    · obtain ⟨u, hu, hfinished, hsame, herror, hnot⟩ := hmarked.rejected a error hrejected
      exact absurd ⟨hsame, hnot, .inr ⟨error, hrejected, hfinished, herror⟩⟩ (hnone u hu)
    · have hsame := (hmarked.owned u hu).interface_eq hpending
      have hworkers := h.one_lt_workers hreuse ht hu (hsame.symm.trans hinterface) hpending hreused
      exact absurd ⟨hsame.symm, hmarked.pending u hu a hpending, .inl ⟨hpending, hworkers⟩⟩
        (hnone u hu)
  refine ⟨a, ha, hmark, ?_, hiff, fun hfinished => ?_, fun hdistinct => ?_⟩
  · intro b hb hmark'
    exact hmarked.eq_of_mark_eq hb ha (hmark'.trans hmark.symm)
  · refine ⟨hmarked.not_rejected_of_accepted, fun hnone => hiff.2 ?_⟩
    rintro u hu ⟨-, -, ⟨hpending, -⟩ | ⟨error, hrejected, -⟩⟩
    · have hinHand := Task.isInHand_of_mem_pending hpending
      have hended : u.isFinished := List.all_eq_true.1 hfinished u hu
      simp [Task.isInHand, hended] at hinHand
    · exact hnone error hrejected
  · refine hiff.2 fun u hu hwithholds => ?_
    have hnodup : (c.tasks.map fun t => t.job.interface).Nodup := by
      rw [← h.map_job_eq, List.map_map] at hdistinct
      exact hdistinct
    obtain rfl := List.inj_on_of_nodup_map hnodup hu ht (hwithholds.1.trans hinterface)
    exact hwithholds.2.1 locale hreused

/-- The second job for `Menu` is served by the artifact of the first, which was accepted. -/
theorem reused_class_accepted_Menu :
    let config : Config := { locales := ["default"] }
    let oracle := Oracle.ofList [(⟨"Menu"⟩, [{ name := "title" }])]
    let made : Except Localization.Error Job := do
      let root ← Bundle.ofDeclarations ⟨"Menu"⟩ .root none [.default "title" (.text "Home")]
      return ⟨.constants, ← Catalog.ofList ⟨"Menu"⟩ [root]⟩
    ∃ job p, made = .ok job ∧ Pass.start config = .ok p ∧
      ∃ events c, Run p [job, job] Emitter.collecting [] events c ∧
        c.report = (p.run [job, job] oracle Emitter.collecting []).1 ∧
        ∃ t ∈ c.tasks, (.root, "Menu_default") ∈ t.report.reused ∧
          ∃ a, ⟨a, .ok ()⟩ ∈ c.deliveries ∧ a.mark = (⟨"Menu"⟩, "Menu_default") := by
  intro config oracle made
  have hstart : Pass.start config = .ok ⟨config, [.root], {}⟩ := rfl
  obtain ⟨job, hmade, hinterface, hrun⟩ : ∃ job, made = .ok job ∧ job.interface = ⟨"Menu"⟩ ∧
      ((⟨config, [.root], {}⟩ : Pass).run [job, job] oracle Emitter.collecting []).1.jobs =
        [{ interface := ⟨"Menu"⟩, emitted := ["Menu_default"] },
         { interface := ⟨"Menu"⟩, reused := [(.root, "Menu_default")] }] :=
    ⟨_, rfl, rfl, rfl⟩
  obtain ⟨c, hc, hfinished, hreport⟩ := exists_report_eq_run (p := ⟨config, [.root], {}⟩)
    (by decide) [job, job] oracle Emitter.collecting []
  obtain ⟨events, hevents⟩ := hc.exists_run
  have hreports : c.tasks.map (·.report) = _ := (congrArg Report.jobs hreport).trans hrun
  obtain ⟨first, rest, htasks, -, hrest⟩ := List.map_eq_cons_iff.1 hreports
  obtain ⟨t, hsecond, hentry⟩ := List.map_eq_singleton_iff.1 hrest
  have ht : t ∈ c.tasks := by simp [htasks, hsecond]
  have hreused : (.root, "Menu_default") ∈ t.report.reused := by simp [hentry]
  have hjob : t.job = job := by
    have hjobs := hc.map_job_eq
    simp only [htasks, hsecond, List.map_cons, List.map_nil, List.cons.injEq] at hjobs
    exact hjobs.2.1
  obtain ⟨a, -, hmark, -, -, haccepted, -⟩ := reused_class_accepted_iff hevents rfl ht hreused
  have hanswers : (Emitter.collecting).Answers fun _ => .ok () := fun _ _ => rfl
  have hnone (error : Error) : ⟨a, .error error⟩ ∉ c.deliveries := by
    intro hrejected
    cases hc.answer_eq hanswers hrejected
  rw [hjob, hinterface] at hmark
  exact ⟨job, _, hmade, hstart, events, c, hevents, hreport, t, ht, hreused, a,
    (haccepted hfinished).2 hnone, hmark⟩

/-- The emitter rejects the artifact of the first job for `Menu` and accepts none at all, and the
second job is taken to be served. -/
theorem rejected_class_reused_Menu :
    let config : Config := { locales := ["default"] }
    let oracle := Oracle.ofList [(⟨"Menu"⟩, [{ name := "title" }])]
    let made : Except Localization.Error Job := do
      let root ← Bundle.ofDeclarations ⟨"Menu"⟩ .root none [.default "title" (.text "Home")]
      return ⟨.constants, ← Catalog.ofList ⟨"Menu"⟩ [root]⟩
    let emitter : Emitter (List Artifact) :=
      { emit := fun accepted a =>
          if a.className = "Menu_default" then
            (.error (.notEmitted a.className "rejected"), accepted)
          else (.ok (), accepted ++ [a]) }
    ∃ job p p', made = .ok job ∧ Pass.start config = .ok p ∧
      p.run [job, job] oracle emitter [] =
        ({ jobs :=
            [{ interface := ⟨"Menu"⟩
               error? := some (.notEmitted "Menu_default" "rejected") },
             { interface := ⟨"Menu"⟩, reused := [(.root, "Menu_default")] }]
           cache := ⟨1, 1, 1, 1⟩ }, [], p') :=
  ⟨_, ⟨{ locales := ["default"] }, [.root], {}⟩, _, rfl, rfl, rfl⟩

end Crew

end Localization.Generation

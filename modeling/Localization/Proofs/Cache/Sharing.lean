import Localization.Proofs.Cache.Memory

namespace Localization.Cache

variable {ε : Type}

/-- What holds of each call by itself: until it lets go of its slot, that is the slot the map has for
its key, the slot it fills is empty, and what it was answered with is what is stored. -/
structure Caller.Fits (m : Memory) (caller : Caller ε) : Prop where
  attached : ∀ slot, caller.phase.attached? = some slot → m.slot? caller.key = some slot
  vacant : ∀ slot, caller.phase.vacant? = some slot → m.contents slot = none
  stored : ∀ stored, caller.stored? = some stored → m.stored? caller.key = some stored

namespace Caller.Fits

variable {m : Memory} {caller : Caller ε}

theorem entered (key : Key) (wish : Wish) : (⟨key, wish, .entered⟩ : Caller ε).Fits m := by
  constructor <;> simp [Phase.attached?, Phase.slot?, Phase.vacant?, Caller.stored?, Phase.answer?]

theorem hit (h : caller.Fits m) : caller.Fits m.hit := ⟨h.attached, h.vacant, h.stored⟩

theorem miss (h : caller.Fits m) : caller.Fits m.miss := ⟨h.attached, h.vacant, h.stored⟩

theorem create (h : caller.Fits m) (hm : m.Wellformed) {key : Key} (hslot : m.slot? key = none) :
    caller.Fits (m.create key) where
  attached := by
    intro slot hattached
    have hcaller := h.attached slot hattached
    have hne : caller.key ≠ key := by
      rintro rfl
      simp [hslot] at hcaller
    rw [m.slot?_create_of_ne hne, hcaller]
  vacant := by
    intro slot hvacant
    simp [h.vacant slot hvacant]
  stored := by
    intro stored hstored
    rw [m.stored?_create hm hslot]
    exact h.stored stored hstored

/-- Filling a slot disturbs no call that does not work on that slot. -/
theorem store (h : caller.Fits m) {slot : Nat} (hempty : m.contents slot = none)
    (hother : caller.phase.vacant? ≠ some slot) (resolution : Resolution) :
    caller.Fits (m.store slot resolution).2 where
  attached := h.attached
  vacant := by
    intro other hvacant
    have hne : other ≠ slot := fun heq => hother (heq ▸ hvacant)
    simp [hne, h.vacant other hvacant]
  stored := by
    intro stored hstored
    obtain ⟨found, hfound, hfull⟩ := Option.bind_eq_some_iff.1 (h.stored stored hstored)
    have hne : found ≠ slot := by
      rintro rfl
      simp [hempty] at hfull
    simp [Memory.stored?, hfound, hne, hfull]

/-- Taking an empty slot out of the map disturbs no call that has no handle of it. -/
theorem remove (h : caller.Fits m) {key : Key} {slot : Nat} (hslot : m.slot? key = some slot)
    (hempty : m.contents slot = none) (hother : caller.phase.slot? ≠ some slot) :
    caller.Fits (m.remove key) where
  attached := by
    intro found hattached
    have hcaller := h.attached found hattached
    have hne : caller.key ≠ key := by
      rintro rfl
      obtain rfl : found = slot := Option.some.inj (hcaller.symm.trans hslot)
      apply hother
      revert hattached
      cases caller.phase <;> simp [Phase.attached?, Phase.slot?]
    rw [m.slot?_remove_of_ne hne, hcaller]
  vacant := h.vacant
  stored := by
    intro stored hstored
    rw [m.stored?_remove hslot hempty]
    exact h.stored stored hstored

end Caller.Fits

theorem Caller.stored?_isSome (caller : Caller ε) (h : caller.succeeded = true) :
    caller.stored?.isSome := by
  obtain ⟨answer, hanswer, hcomputed⟩ := (Option.any_eq_true _ _).1 h
  rw [stored?, hanswer]
  cases answer <;> simp [Answer.isComputed, Answer.stored?] at hcomputed ⊢

/-- Each call finds things as it expects them, no lock is held twice, and each stored resolution
was computed by one call. To one caller after another the memory would look like a cache. -/
structure Shared.Safe (s : Shared ε) : Prop where
  wellformed : s.memory.Wellformed
  fits : ∀ caller ∈ s.callers, caller.Fits s.memory
  locked : ∀ slot, s.callers.countP (·.phase.locked? = some slot) ≤ 1
  successes : ∀ key, s.callers.countP (fun caller => caller.key = key ∧ caller.succeeded) =
    if (s.memory.stored? key).isSome then 1 else 0
  sequential : ∃ c : Cache, c.Sound ∧ s.memory.Represents c

namespace Shared.Safe

variable {m m' : Memory} {caller caller' : Caller ε} {before after : List (Caller ε)}

/-- One call takes a step. Its lock was its own before, or nobody had it. -/
theorem replace (h : Safe ⟨m, before ++ caller :: after⟩) (hwellformed : m'.Wellformed)
    (hothers : ∀ d ∈ before ++ after, d.Fits m → d.Fits m') (hfits : caller'.Fits m')
    (hlocked : ∀ slot, caller'.phase.locked? = some slot →
      caller.phase.locked? = some slot ∨ Unlocked (before ++ caller :: after) slot)
    (hsuccesses : ∀ key, (before ++ caller' :: after).countP
      (fun caller => caller.key = key ∧ caller.succeeded) =
        if (m'.stored? key).isSome then 1 else 0)
    (hsequential : ∃ c : Cache, c.Sound ∧ m'.Represents c) :
    Safe ⟨m', before ++ caller' :: after⟩ where
  wellformed := hwellformed
  fits := by
    have hold := h.fits
    simp only [List.forall_mem_append, List.forall_mem_cons] at hold hothers ⊢
    obtain ⟨hbefore, -, hafter⟩ := hold
    exact ⟨fun d hd => hothers.1 d hd (hbefore d hd), hfits,
      fun d hd => hothers.2 d hd (hafter d hd)⟩
  locked := by
    intro slot
    have hold := h.locked slot
    simp only [List.countP_append, List.countP_cons] at hold ⊢
    by_cases hnew : caller'.phase.locked? = some slot
    · rcases hlocked slot hnew with hsame | hfree
      · simpa [hnew, hsame] using hold
      · have hnone : (before ++ caller :: after).countP (·.phase.locked? = some slot) = 0 :=
          List.countP_eq_zero.2 fun d hd => by simpa using hfree d hd
        simp only [List.countP_append, List.countP_cons] at hnone
        simp [hnew]
        omega
    · simp only [hnew]
      simp
      omega
  successes := hsuccesses
  sequential := hsequential

/-- A step that leaves alone what is stored, by a call whose own computation is not just stored. -/
theorem quiet (h : Safe ⟨m, before ++ caller :: after⟩) (hkey : caller'.key = caller.key)
    (hsucceeded : caller'.succeeded = caller.succeeded) (hfits : caller'.Fits m')
    (hlocked : ∀ slot, caller'.phase.locked? = some slot →
      caller.phase.locked? = some slot ∨ Unlocked (before ++ caller :: after) slot)
    (hwellformed : m'.Wellformed) (hothers : ∀ d ∈ before ++ after, d.Fits m → d.Fits m')
    (hstored : ∀ key, m'.stored? key = m.stored? key)
    (hsequential : ∃ c : Cache, c.Sound ∧ m'.Represents c) :
    Safe ⟨m', before ++ caller' :: after⟩ := by
  refine h.replace hwellformed hothers hfits hlocked (fun key => ?_) hsequential
  have hold := h.successes key
  simp only [List.countP_append, List.countP_cons, hkey, hsucceeded, hstored] at hold ⊢
  exact hold

/-- A step that leaves the memory as it is. -/
theorem still (h : Safe ⟨m, before ++ caller :: after⟩) (hkey : caller'.key = caller.key)
    (hsucceeded : caller'.succeeded = caller.succeeded) (hfits : caller'.Fits m)
    (hlocked : ∀ slot, caller'.phase.locked? = some slot →
      caller.phase.locked? = some slot ∨ Unlocked (before ++ caller :: after) slot) :
    Safe ⟨m, before ++ caller' :: after⟩ :=
  h.quiet hkey hsucceeded hfits hlocked h.wellformed (fun _ _ hd => hd) (fun _ => rfl) h.sequential

theorem fits_self (h : Safe ⟨m, before ++ caller :: after⟩) : caller.Fits m :=
  h.fits caller (List.mem_append_right _ List.mem_cons_self)

/-- Nobody else has the lock that a call has. -/
theorem unlocked_others (h : Safe ⟨m, before ++ caller :: after⟩) {slot : Nat}
    (hlocked : caller.phase.locked? = some slot) : Unlocked (before ++ after) slot := by
  have hold := h.locked slot
  have hnone : (before ++ after).countP (·.phase.locked? = some slot) = 0 := by
    simp only [List.countP_append, List.countP_cons, hlocked] at hold ⊢
    simp at hold
    omega
  intro d hd
  simpa using List.countP_eq_zero.1 hnone d hd

end Shared.Safe

/-- A slot that is in the map and has two handles, one of them with a call, is with no other call. -/
theorem Memory.no_other_handle {m : Memory} {caller : Caller ε} {before after : List (Caller ε)}
    {key : Key} {slot : Nat} (hm : m.Wellformed) (hslot : m.slot? key = some slot)
    (hcaller : caller.phase.slot? = some slot)
    (hhandles : m.handles (before ++ caller :: after) slot = 2) :
    ∀ d ∈ before ++ after, d.phase.slot? ≠ some slot := by
  have hmap : 0 < m.slots.countP (·.2 = slot) :=
    List.countP_pos_iff.2 ⟨_, hm.mem_slots_iff.1 hslot, by simp⟩
  have hnone : (before ++ after).countP (·.phase.slot? = some slot) = 0 := by
    simp only [Memory.handles, List.countP_append, List.countP_cons, hcaller] at hhandles ⊢
    simp at hhandles
    omega
  intro d hd
  simpa using List.countP_eq_zero.1 hnone d hd

namespace Shared.Safe

variable {m m' : Memory} {caller caller' : Caller ε} {before after : List (Caller ε)}

/-- A call whose computation succeeded fills the slot. -/
theorem store {key : Key} {wish : Wish} {slot : Nat} {resolution : Resolution}
    (h : Safe ⟨m, before ++ (⟨key, wish, .storing slot resolution⟩ : Caller ε) :: after⟩) :
    Safe ⟨(m.store slot resolution).2, before ++
      (⟨key, wish, .answered slot (.computed (m.store slot resolution).1)⟩ : Caller ε) :: after⟩ := by
  have hslot : m.slot? key = some slot := h.fits_self.attached slot rfl
  have hempty : m.contents slot = none := h.fits_self.vacant slot rfl
  have hstored : (m.store slot resolution).2.stored? key = some (m.store slot resolution).1 :=
    m.stored?_store_self hslot resolution
  have hothers : Unlocked (before ++ after) slot := h.unlocked_others rfl
  refine h.replace (h.wellformed.store slot resolution) (fun d hd hfits => ?_) ⟨?_, ?_, ?_⟩ ?_
    (fun other => ?_) ?_
  · refine hfits.store hempty (fun hvacant => hothers d hd ?_) resolution
    revert hvacant
    cases d.phase <;> simp [Phase.vacant?, Phase.locked?]
  · exact h.fits_self.attached
  · simp [Phase.vacant?]
  · intro stored hanswer
    obtain rfl : (m.store slot resolution).1 = stored := by
      simpa [Caller.stored?, Phase.answer?, Answer.stored?] using hanswer
    exact hstored
  · exact fun _ hlocked => .inl hlocked
  · have hold := h.successes other
    have hearlier : (⟨key, wish, .storing slot resolution⟩ : Caller ε).succeeded = false := rfl
    have hlater : (⟨key, wish, .answered slot (.computed (m.store slot resolution).1)⟩ :
      Caller ε).succeeded = true := rfl
    simp only [List.countP_append, List.countP_cons, hearlier, hlater] at hold ⊢
    by_cases hkey : other = key
    · subst hkey
      have hnone : m.stored? other = none := by simp [Memory.stored?, hslot, hempty]
      rw [hnone] at hold
      rw [hstored]
      simp only [Option.isSome_none, Option.isSome_some, Bool.false_eq_true, and_false, and_true,
        decide_false, decide_true, if_true, if_false] at hold ⊢
      omega
    · rw [m.stored?_store_of_ne h.wellformed hslot hkey]
      simpa [Ne.symm hkey] using hold
  · obtain ⟨c, hsound, hc⟩ := h.sequential
    obtain ⟨-, hstore⟩ := hc.store h.wellformed hslot resolution
    have habsent : c.get? key = none := by rw [← hc.stored]; simp [Memory.stored?, hslot, hempty]
    exact ⟨_, hsound.store habsent resolution, hstore⟩

/-- A call whose computation failed looks after its slot. -/
theorem release {key : Key} {wish : Wish} {slot : Nat} {error : ε}
    (h : Safe ⟨m, before ++ (⟨key, wish, .releasing slot error⟩ : Caller ε) :: after⟩) :
    Safe ⟨m.release (before ++ (⟨key, wish, .releasing slot error⟩ : Caller ε) :: after) key slot,
      before ++ (⟨key, wish, .leaving slot (.failed error)⟩ : Caller ε) :: after⟩ := by
  unfold Memory.release
  split
  · rename_i hcond
    obtain ⟨hslot, hhandles, hempty⟩ := hcond
    have hothers := Memory.no_other_handle h.wellformed hslot rfl hhandles
    have hstored := m.stored?_remove hslot hempty
    refine h.quiet rfl rfl ⟨?_, ?_, ?_⟩ ?_ (h.wellformed.remove key)
      (fun d hd hfits => hfits.remove hslot hempty (hothers d hd)) hstored ?_
    · simp [Phase.attached?]
    · simp [Phase.vacant?]
    · simp [Caller.stored?, Phase.answer?, Answer.stored?]
    · simp [Phase.locked?]
    · obtain ⟨c, hsound, hc⟩ := h.sequential
      exact ⟨c, hsound, hc.remove hslot hempty⟩
  · refine h.still rfl rfl ⟨?_, ?_, ?_⟩ ?_
    · simp [Phase.attached?]
    · simp [Phase.vacant?]
    · simp [Caller.stored?, Phase.answer?, Answer.stored?]
    · simp [Phase.locked?]

theorem move (h : Safe ⟨m, before ++ caller :: after⟩)
    (hmove : Moves (before ++ caller :: after) m caller m' caller') :
    Safe ⟨m', before ++ caller' :: after⟩ := by
  have hcaller := h.fits_self
  obtain ⟨c, hsound, hc⟩ := h.sequential
  cases hmove with
  | findSlot hslot =>
    refine h.still rfl rfl ⟨fun slot hattached => ?_, ?_, ?_⟩ ?_
    · obtain rfl := Option.some.inj hattached
      exact hslot
    · simp [Phase.vacant?]
    · simp [Caller.stored?, Phase.answer?]
    · simp [Phase.locked?]
  | createSlot hslot =>
    have hstored := Memory.stored?_create h.wellformed hslot
    refine h.quiet rfl rfl ⟨fun slot hattached => ?_, ?_, ?_⟩ ?_ (h.wellformed.create hslot)
      (fun d _ hd => hd.create h.wellformed hslot) hstored ?_
    · obtain rfl := Option.some.inj hattached
      exact m.slot?_create_self _
    · simp [Phase.vacant?]
    · simp [Caller.stored?, Phase.answer?]
    · simp [Phase.locked?]
    · exact ⟨c, hsound, hc.create h.wellformed hslot⟩
  | findNothing hslot =>
    refine h.still rfl rfl ⟨?_, ?_, ?_⟩ ?_
    · simp [Phase.attached?, Phase.slot?]
    · simp [Phase.vacant?]
    · simp [Caller.stored?, Phase.answer?, Answer.stored?]
    · simp [Phase.locked?]
  | hit hlock hfull =>
    rename_i key slot stored
    have hslot := hcaller.attached slot rfl
    refine h.quiet rfl rfl ⟨hcaller.attached, ?_, fun found hfound => ?_⟩ ?_ h.wellformed.hit
      (fun d _ hd => hd.hit) (fun _ => rfl) ⟨c.hit, hsound.hit, hc.hit⟩
    · simp [Phase.vacant?]
    · obtain rfl : stored = found := by
        simpa [Caller.stored?, Phase.answer?, Answer.stored?] using hfound
      simp [Memory.stored?, hslot, hfull]
    · intro found hlocked
      obtain rfl := Option.some.inj hlocked
      exact .inr hlock
  | miss hlock hempty =>
    refine h.quiet rfl rfl ⟨hcaller.attached, fun slot hvacant => ?_, ?_⟩ ?_ h.wellformed.miss
      (fun d _ hd => hd.miss) (fun _ => rfl) ⟨c.miss, hsound.miss, hc.miss⟩
    · obtain rfl := Option.some.inj hvacant
      exact hempty
    · simp [Caller.stored?, Phase.answer?]
    · intro found hlocked
      obtain rfl := Option.some.inj hlocked
      exact .inr hlock
  | read hlock =>
    rename_i key slot
    have hslot := hcaller.attached slot rfl
    refine h.still rfl rfl ⟨hcaller.attached, ?_, fun found hfound => ?_⟩ ?_
    · simp [Phase.vacant?]
    · have hfull : m.contents slot = some found := hfound
      simp [Memory.stored?, hslot, hfull]
    · intro found hlocked
      obtain rfl := Option.some.inj hlocked
      exact .inr hlock
  | succeed resolution =>
    exact h.still rfl rfl ⟨hcaller.attached, hcaller.vacant, by
      simp [Caller.stored?, Phase.answer?]⟩ fun _ hlocked => .inl hlocked
  | fail error =>
    exact h.still rfl rfl ⟨hcaller.attached, hcaller.vacant, by
      simp [Caller.stored?, Phase.answer?]⟩ fun _ hlocked => .inl hlocked
  | breakOff =>
    exact h.still rfl rfl ⟨hcaller.attached, by simp [Phase.vacant?], by
      simp [Caller.stored?, Phase.answer?, Answer.stored?]⟩ fun _ hlocked => .inl hlocked
  | store => exact h.store
  | unlockFailed =>
    exact h.still rfl rfl ⟨hcaller.attached, by simp [Phase.vacant?], by
      simp [Caller.stored?, Phase.answer?]⟩ (by simp [Phase.locked?])
  | release => exact h.release
  | unlock =>
    exact h.still rfl rfl ⟨by simp [Phase.attached?], by simp [Phase.vacant?], hcaller.stored⟩
      (by simp [Phase.locked?])
  | drop =>
    exact h.still rfl rfl ⟨by simp [Phase.attached?, Phase.slot?], by simp [Phase.vacant?],
      hcaller.stored⟩ (by simp [Phase.locked?])

theorem step {s s' : Shared ε} (h : s.Safe) (hstep : Step s s') : s'.Safe := by
  cases hstep with
  | enter _ key wish =>
    refine ⟨h.wellformed, ?_, ?_, ?_, h.sequential⟩
    · intro d hd
      rcases List.mem_append.1 hd with hd | hd
      · exact h.fits d hd
      · obtain rfl := List.mem_singleton.1 hd
        exact .entered key wish
    · intro slot
      simpa [List.countP_append, Phase.locked?] using h.locked slot
    · intro other
      simpa [List.countP_append, Caller.succeeded, Phase.answer?] using h.successes other
  | move before after hmove => exact h.move hmove

theorem of_reachable {s : Shared ε} (h : Reachable s) : s.Safe := by
  induction h with
  | start m =>
    refine ⟨.cleared m, by simp, by simp, by simp [Memory.stored?, Memory.slot?, Memory.clear], ?_⟩
    refine ⟨({ nextSerial := m.nextSerial } : Cache).clear, .cleared _, ?_⟩
    exact ⟨by simp [Memory.stored?, Memory.slot?, Memory.clear], rfl, rfl⟩
  | step _ hstep ih => exact ih.step hstep

/-- What a call was answered with was computed by one of the calls for its key. -/
theorem exists_succeeded {s : Shared ε} (h : s.Safe) (hcaller : caller ∈ s.callers) {stored : Stored}
    (hstored : caller.stored? = some stored) :
    ∃ other ∈ s.callers, other.key = caller.key ∧ other.succeeded ∧ other.stored? = some stored := by
  have hkey := (h.fits caller hcaller).stored stored hstored
  have hcount := h.successes caller.key
  rw [hkey, Option.isSome_some, if_pos rfl] at hcount
  have hpos : 0 < s.callers.countP (fun other => other.key = caller.key ∧ other.succeeded) := by
    omega
  obtain ⟨other, hother, hsame⟩ := List.countP_pos_iff.1 hpos
  obtain ⟨hotherKey, hsucceeded⟩ : other.key = caller.key ∧ other.succeeded = true := by
    simpa using hsame
  obtain ⟨found, hfound⟩ := Option.isSome_iff_exists.1 (other.stored?_isSome hsucceeded)
  have hheld := (h.fits other hother).stored found hfound
  rw [hotherKey, hkey] at hheld
  exact ⟨other, hother, hotherKey, hsucceeded, hfound.trans hheld.symm⟩

/-- No step takes a slot out of the map that is filled or that another call has a handle of. -/
theorem kept_slots (h : Safe ⟨m, before ++ caller :: after⟩)
    (hmove : Moves (before ++ caller :: after) m caller m' caller') {key : Key} {slot : Nat}
    (hslot : m.slot? key = some slot) (hgone : m'.slot? key ≠ some slot) :
    m.contents slot = none ∧ ∀ other ∈ before ++ after, other.phase.slot? ≠ some slot := by
  cases hmove with
  | createSlot hnone =>
    rename_i own
    have hne : key ≠ own := by
      rintro rfl
      simp [hnone] at hslot
    rw [m.slot?_create_of_ne hne] at hgone
    exact absurd hslot hgone
  | release _ =>
    rename_i own _ freed _ _
    unfold Memory.release at hgone
    split at hgone
    · rename_i hcond
      obtain ⟨hown, hhandles, hempty⟩ := hcond
      obtain rfl : key = own := by
        by_contra hne
        exact hgone ((m.slot?_remove_of_ne hne).trans hslot)
      obtain rfl : slot = freed := Option.some.inj (hslot.symm.trans hown)
      exact ⟨hempty, Memory.no_other_handle h.wellformed hslot rfl hhandles⟩
    · exact absurd hslot hgone
  | _ => exact absurd hslot hgone

/-- A slot that may have to go is never locked, so that looking after it waits for nobody. -/
theorem unlocked_of_two_handles {key : Key} {wish : Wish} {slot : Nat} {error : ε}
    (h : Safe ⟨m, before ++ (⟨key, wish, .releasing slot error⟩ : Caller ε) :: after⟩)
    (hslot : m.slot? key = some slot)
    (hhandles : m.handles (before ++ (⟨key, wish, .releasing slot error⟩ : Caller ε) :: after) slot =
      2) :
    Unlocked (before ++ (⟨key, wish, .releasing slot error⟩ : Caller ε) :: after) slot := by
  have hothers := Memory.no_other_handle h.wellformed hslot rfl hhandles
  have hunlocked (d : Caller ε) (hd : d.phase.slot? ≠ some slot) : d.phase.locked? ≠ some slot := by
    revert hd
    cases d.phase <;> simp [Phase.slot?, Phase.locked?]
  intro d hd
  rcases List.mem_append.1 hd with hd | hd
  · exact hunlocked d (hothers d (List.mem_append_left _ hd))
  · rcases List.mem_cons.1 hd with rfl | hd
    · simp [Phase.locked?]
    · exact hunlocked d (hothers d (List.mem_append_right _ hd))

end Shared.Safe

end Localization.Cache

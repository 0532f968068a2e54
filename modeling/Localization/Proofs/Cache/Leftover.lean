import Localization.Proofs.Cache.Sharing

namespace Localization.Cache

variable {ε : Type}

namespace Memory

variable {m : Memory} {caller : Caller ε} {before after : List (Caller ε)} {key : Key} {slot : Nat}

/-- The map has a slot for the key, and it is empty. -/
def Vacant (m : Memory) (key : Key) : Prop :=
  ∃ slot, m.slot? key = some slot ∧ m.contents slot = none

theorem Vacant.contents_eq_none (h : m.Vacant key) (hslot : m.slot? key = some slot) :
    m.contents slot = none := by
  obtain ⟨found, hfound, hempty⟩ := h
  obtain rfl : slot = found := Option.some.inj (hslot.symm.trans hfound)
  exact hempty

theorem slot?_isSome_iff (m : Memory) (key : Key) :
    (m.slot? key).isSome ↔ (m.stored? key).isSome ∨ m.Vacant key := by
  unfold Vacant stored?
  cases m.slot? key with
  | none => simp
  | some slot => cases hcontents : m.contents slot <;> simp [hcontents]

theorem vacant_of_create (hm : m.Wellformed) {other : Key} (hne : other ≠ key)
    (h : (m.create key).Vacant other) : m.Vacant other := by
  obtain ⟨slot, hslot, hempty⟩ := h
  rw [m.slot?_create_of_ne hne] at hslot
  have hold : slot ≠ m.nextSlot := Nat.ne_of_lt (hm.slot?_lt hslot)
  exact ⟨slot, hslot, by simpa [hold] using hempty⟩

theorem vacant_of_store {resolution : Resolution} {other : Key}
    (h : (m.store slot resolution).2.Vacant other) :
    m.Vacant other ∧ m.slot? other ≠ some slot := by
  obtain ⟨found, hfound, hempty⟩ := h
  rw [slot?_store] at hfound
  have hne : found ≠ slot := by
    rintro rfl
    simp at hempty
  refine ⟨⟨found, hfound, by simpa [hne] using hempty⟩, ?_⟩
  rw [hfound]
  simpa using hne

theorem countP_slots (hm : m.Wellformed) (hslot : m.slot? key = some slot) :
    m.slots.countP (·.2 = slot) = 1 := by
  have hmem : slot ∈ m.slots.map (·.2) := List.mem_map_of_mem (hm.mem_slots_iff.1 hslot)
  have hcount := List.count_eq_one_of_mem hm.slots hmem
  rw [List.count_eq_countP, List.countP_map] at hcount
  refine Eq.trans (List.countP_congr fun e _ => ?_) hcount
  simp

/-- A call that has a handle of a slot in the map has the only one, that of the map apart, just when
two are counted. -/
theorem handles_eq_two_iff (hm : m.Wellformed) (hslot : m.slot? key = some slot)
    (hcaller : caller.phase.slot? = some slot) :
    m.handles (before ++ caller :: after) slot = 2 ↔
      (before ++ after).any (·.phase.slot? = some slot) = false := by
  simp only [List.any_eq_false, decide_eq_true_eq]
  refine ⟨no_other_handle hm hslot hcaller, fun hothers => ?_⟩
  have hnone : (before ++ after).countP (·.phase.slot? = some slot) = 0 :=
    List.countP_eq_zero.2 fun d hd => by simpa using hothers d hd
  have hmap := countP_slots hm hslot
  simp only [handles, List.countP_append, List.countP_cons, hcaller] at hnone ⊢
  simp
  omega

theorem two_lt_handles {callers : List (Caller ε)} {first second : Caller ε} (hm : m.Wellformed)
    (hslot : m.slot? key = some slot) (hfirst : first.phase.slot? = some slot)
    (hsecond : second.phase.slot? = some slot) :
    2 < m.handles (callers ++ [first, second]) slot := by
  have hmap := countP_slots hm hslot
  simp only [handles, List.countP_append, List.countP_cons, hfirst, hsecond, decide_true, if_true]
  omega

end Memory

/-- What a call whose computation failed saw when it looked after the slot of its key: whether
another call had a handle of the slot too. -/
structure Look where
  key : Key
  shared : Bool

/-- Whether the last look at the slot of a key found it shared. The looks are in order, the last one
first. -/
def lastShared (looks : List Look) (key : Key) : Bool :=
  (looks.find? (·.key = key)).any (·.shared)

theorem lastShared_cons_self (key : Key) (shared : Bool) (looks : List Look) :
    lastShared (⟨key, shared⟩ :: looks) key = shared := by
  simp [lastShared]

theorem lastShared_cons_of_ne {key other : Key} (hne : other ≠ key) (shared : Bool)
    (looks : List Look) : lastShared (⟨key, shared⟩ :: looks) other = lastShared looks other := by
  simp [lastShared, Ne.symm hne]

namespace Caller

/-- The look that the next step of a call takes. -/
def look? (caller : Caller ε) (others : List (Caller ε)) : Option Look :=
  match caller.phase with
  | .releasing slot _ => some ⟨caller.key, others.any (·.phase.slot? = some slot)⟩
  | _ => none

/-- The call may fill the slot of its key yet, or has to look after it, or broke off and did
neither. -/
def Liable (caller : Caller ε) : Prop :=
  match caller.phase with
  | .waiting _ => caller.wish = .fetch
  | .computing _ => True
  | .storing _ _ => True
  | .failing _ _ => True
  | .releasing _ _ => True
  | phase => phase.answer? = some .brokenOff

end Caller

/-- Looking after a slot changes nothing while another call has a handle of it. -/
theorem Moves.keep {m : Memory} {callers : List (Caller ε)} {key : Key} {wish : Wish} {slot : Nat}
    {error : ε} (hmore : 2 < m.handles callers slot) :
    Moves callers m ⟨key, wish, .releasing slot error⟩ m
      ⟨key, wish, .leaving slot (.failed error)⟩ := by
  have hkept : m.release callers key slot = m := if_neg fun hcond => by omega
  have hmove : Moves callers m ⟨key, wish, .releasing slot error⟩ (m.release callers key slot)
      ⟨key, wish, .leaving slot (.failed error)⟩ := .release fun _ htwo => by omega
  rwa [hkept] at hmove

namespace Shared

/-- The states that calls in any order lead to from an empty cache, with the looks taken so far. -/
inductive Traced : Shared ε → List Look → Prop where
  | start (m : Memory) : Traced ⟨m.clear, []⟩ []
  | enter {s : Shared ε} {looks : List Look} (h : Traced s looks) (key : Key) (wish : Wish) :
      Traced { s with callers := s.callers ++ [⟨key, wish, .entered⟩] } looks
  | move {m m' : Memory} {caller caller' : Caller ε} {looks : List Look}
      (before after : List (Caller ε)) (h : Traced ⟨m, before ++ caller :: after⟩ looks)
      (hmove : Moves (before ++ caller :: after) m caller m' caller') :
      Traced ⟨m', before ++ caller' :: after⟩
        ((caller.look? (before ++ after)).toList ++ looks)

theorem Traced.reachable {s : Shared ε} {looks : List Look} (h : s.Traced looks) : s.Reachable := by
  induction h with
  | start m => exact .start m
  | enter _ key wish ih => exact ih.step (.enter _ key wish)
  | move before after _ hmove ih => exact ih.step (.move before after hmove)

theorem Reachable.exists_traced {s : Shared ε} (h : s.Reachable) : ∃ looks, s.Traced looks := by
  induction h with
  | start m => exact ⟨[], .start m⟩
  | step _ hstep ih =>
    obtain ⟨looks, hlooks⟩ := ih
    cases hstep with
    | enter _ key wish => exact ⟨looks, hlooks.enter key wish⟩
    | move before after hmove => exact ⟨_, hlooks.move before after hmove⟩

/-- For each empty slot in the map there is a call that still has to do with it, unless the last
look found it shared. A slot found shared stays until the next look. -/
structure Accounted (s : Shared ε) (looks : List Look) : Prop where
  vacant : ∀ key, s.memory.Vacant key →
    (∃ caller ∈ s.callers, caller.key = key ∧ caller.Liable) ∨ lastShared looks key
  shared : ∀ key, lastShared looks key → (s.memory.slot? key).isSome

namespace Accounted

variable {m m' : Memory} {caller caller' : Caller ε} {before after : List (Caller ε)}
  {looks : List Look}

theorem exists_liable_replace {key : Key}
    (h : ∃ d ∈ before ++ caller :: after, d.key = key ∧ d.Liable)
    (hcaller : caller.key = key → caller.Liable → caller'.key = key ∧ caller'.Liable) :
    ∃ d ∈ before ++ caller' :: after, d.key = key ∧ d.Liable := by
  obtain ⟨d, hd, hkey, hliable⟩ := h
  simp only [List.mem_append, List.mem_cons] at hd
  obtain hd | rfl | hd := hd
  · exact ⟨d, by simp [hd], hkey, hliable⟩
  · exact ⟨caller', by simp, hcaller hkey hliable⟩
  · exact ⟨d, by simp [hd], hkey, hliable⟩

/-- A step that is no look. -/
theorem quiet (h : Accounted ⟨m, before ++ caller :: after⟩ looks)
    (hvacant : ∀ key, m'.Vacant key → m.Vacant key ∨ caller'.key = key ∧ caller'.Liable)
    (hslot : ∀ key, (m.slot? key).isSome → (m'.slot? key).isSome)
    (hliable : caller.Liable → m'.Vacant caller.key → caller'.key = caller.key ∧ caller'.Liable) :
    Accounted ⟨m', before ++ caller' :: after⟩ looks where
  vacant := by
    intro key hempty
    obtain hold | hown := hvacant key hempty
    · refine (h.vacant key hold).imp_left fun hexists => exists_liable_replace hexists ?_
      rintro rfl hcaller
      exact hliable hcaller hempty
    · exact .inl ⟨caller', by simp, hown⟩
  shared := fun key hshared => hslot key (h.shared key hshared)

/-- A step that leaves the map and the slots as they are. -/
theorem still (h : Accounted ⟨m, before ++ caller :: after⟩ looks)
    (hslots : ∀ key, m'.slot? key = m.slot? key) (hcontents : m'.contents = m.contents)
    (hliable : caller.Liable → m.Vacant caller.key → caller'.key = caller.key ∧ caller'.Liable) :
    Accounted ⟨m', before ++ caller' :: after⟩ looks := by
  have hvacant (key : Key) : m'.Vacant key ↔ m.Vacant key := by
    simp only [Memory.Vacant, hslots, hcontents]
  refine h.quiet (fun key hempty => .inl ((hvacant key).1 hempty)) (fun key hslot => ?_)
    fun hcaller hempty => hliable hcaller ((hvacant _).1 hempty)
  rw [hslots]
  exact hslot

/-- A look at the slot of one key tells nothing about the others. -/
theorem elsewhere (h : Accounted ⟨m, before ++ caller :: after⟩ looks) {other : Key}
    (hne : other ≠ caller.key) (hempty : m.Vacant other) (shared : Bool) :
    (∃ d ∈ before ++ caller' :: after, d.key = other ∧ d.Liable) ∨
      lastShared (⟨caller.key, shared⟩ :: looks) other := by
  rw [lastShared_cons_of_ne hne]
  exact (h.vacant other hempty).imp_left fun hexists =>
    exists_liable_replace hexists fun hkey => absurd hkey.symm hne

/-- A look that finds the slot with no other call takes it away. -/
theorem remove (h : Accounted ⟨m, before ++ caller :: after⟩ looks) :
    Accounted ⟨m.remove caller.key, before ++ caller' :: after⟩ (⟨caller.key, false⟩ :: looks) where
  vacant := by
    rintro other ⟨slot, hslot, hempty⟩
    have hne : other ≠ caller.key := by
      rintro rfl
      simp [m.slot?_remove_self] at hslot
    rw [m.slot?_remove_of_ne hne] at hslot
    exact h.elsewhere hne ⟨slot, hslot, hempty⟩ false
  shared := by
    intro other hshared
    have hne : other ≠ caller.key := by
      rintro rfl
      simp [lastShared_cons_self] at hshared
    rw [lastShared_cons_of_ne hne] at hshared
    rw [m.slot?_remove_of_ne hne]
    exact h.shared other hshared

/-- A look that leaves the slot where it is found it shared or filled. -/
theorem keep (h : Accounted ⟨m, before ++ caller :: after⟩ looks)
    (hslot : (m.slot? caller.key).isSome) {shared : Bool}
    (hshared : m.Vacant caller.key → shared = true) :
    Accounted ⟨m, before ++ caller' :: after⟩ (⟨caller.key, shared⟩ :: looks) where
  vacant := by
    intro other hempty
    by_cases hkey : other = caller.key
    · subst hkey
      rw [lastShared_cons_self]
      exact .inr (hshared hempty)
    · exact h.elsewhere hkey hempty shared
  shared := by
    intro other hlast
    by_cases hkey : other = caller.key
    · rw [hkey]
      exact hslot
    · rw [lastShared_cons_of_ne hkey] at hlast
      exact h.shared other hlast

/-- A call whose computation failed looks after its slot. -/
theorem release {key : Key} {wish : Wish} {slot : Nat} {error : ε}
    (h : Accounted ⟨m, before ++ (⟨key, wish, .releasing slot error⟩ : Caller ε) :: after⟩ looks)
    (hm : m.Wellformed) (hslot : m.slot? key = some slot) :
    Accounted
      ⟨m.release (before ++ (⟨key, wish, .releasing slot error⟩ : Caller ε) :: after) key slot,
        before ++ caller' :: after⟩
      (⟨key, (before ++ after).any (·.phase.slot? = some slot)⟩ :: looks) := by
  have hcount : m.handles (before ++ ⟨key, wish, .releasing slot error⟩ :: after) slot = 2 ↔
      (before ++ after).any (·.phase.slot? = some slot) = false :=
    Memory.handles_eq_two_iff hm hslot rfl
  unfold Memory.release
  split
  · rename_i hcond
    rw [hcount.1 hcond.2.1]
    exact h.remove
  · rename_i hcond
    refine h.keep (by simp [hslot]) fun hempty => ?_
    by_contra hnone
    rw [Bool.not_eq_true, ← hcount] at hnone
    exact hcond ⟨hslot, hnone, hempty.contents_eq_none hslot⟩

theorem move (h : Accounted ⟨m, before ++ caller :: after⟩ looks)
    (hsafe : Safe ⟨m, before ++ caller :: after⟩)
    (hmove : Moves (before ++ caller :: after) m caller m' caller') :
    Accounted ⟨m', before ++ caller' :: after⟩
      ((caller.look? (before ++ after)).toList ++ looks) := by
  have hcaller := hsafe.fits_self
  cases hmove with
  | createSlot hslot =>
    rename_i key
    refine h.quiet (fun other hempty => ?_) (fun other hother => ?_) fun hliable _ => ?_
    · by_cases hne : other = key
      · exact .inr ⟨hne.symm, rfl⟩
      · exact .inl (Memory.vacant_of_create hsafe.wellformed hne hempty)
    · by_cases hne : other = key
      · simp [hne, m.slot?_create_self]
      · rwa [m.slot?_create_of_ne hne]
    · simp [Caller.Liable, Phase.answer?] at hliable
  | hit _ hfull =>
    refine h.still (fun _ => rfl) rfl fun _ hempty => ?_
    have hcontents := hempty.contents_eq_none (hcaller.attached _ rfl)
    simp [hfull] at hcontents
  | store =>
    exact h.quiet (fun other hempty => .inl (Memory.vacant_of_store hempty).1)
      (fun _ hother => hother)
      fun _ hempty => absurd (hcaller.attached _ rfl) (Memory.vacant_of_store hempty).2
  | release => exact h.release hsafe.wellformed (hcaller.attached _ rfl)
  | _ => exact h.still (fun _ => rfl) rfl (by simp +contextual [Caller.Liable, Phase.answer?])

theorem of_traced {s : Shared ε} (h : s.Traced looks) : s.Accounted looks := by
  induction h with
  | start m =>
    refine ⟨fun key hempty => ?_, by simp [lastShared]⟩
    obtain ⟨slot, hslot, -⟩ := hempty
    simp [Memory.slot?, Memory.clear] at hslot
  | enter _ key wish ih =>
    refine ⟨fun other hempty => ?_, ih.shared⟩
    obtain ⟨caller, hcaller, hliable⟩ | hshared := ih.vacant other hempty
    · exact .inl ⟨caller, List.mem_append_left _ hcaller, hliable⟩
    · exact .inr hshared
  | move before after hbefore hmove ih => exact ih.move (.of_reachable hbefore.reachable) hmove

end Accounted

/-- Once all calls are over, and none of them broke off, the map has slots for the keys that are
stored and for those whose slot was shared at the last look, and for no other keys: a slot that two
failing calls had handles of at once stays if neither had let go of it when the other one looked. -/
theorem slot_left_iff {s : Shared ε} {looks : List Look} (h : s.Traced looks)
    (hover : ∀ caller ∈ s.callers, caller.phase.isReturned)
    (hwhole : ∀ caller ∈ s.callers, caller.phase.answer? ≠ some .brokenOff) (key : Key) :
    (s.memory.slot? key).isSome ↔ (s.memory.stored? key).isSome ∨ lastShared looks key := by
  have haccounted := Accounted.of_traced h
  have hfree (caller : Caller ε) (hcaller : caller ∈ s.callers) : ¬ caller.Liable := by
    have hreturned := hover caller hcaller
    have hunbroken := hwhole caller hcaller
    cases hphase : caller.phase <;> simp [hphase, Phase.isReturned] at hreturned
    simpa [Caller.Liable, hphase] using hunbroken
  rw [Memory.slot?_isSome_iff]
  constructor
  · rintro (hstored | hempty)
    · exact .inl hstored
    · obtain ⟨caller, hcaller, -, hliable⟩ | hshared := haccounted.vacant key hempty
      · exact absurd hliable (hfree caller hcaller)
      · exact .inr hshared
  · rintro (hstored | hshared)
    · exact .inl hstored
    · exact (s.memory.slot?_isSome_iff key).1 (haccounted.shared key hshared)

/-- A call that fails alone takes its slot away again. -/
theorem slot_left_iff_after_failure :
    ∃ (s : Shared String) (looks : List Look), s.Traced looks ∧ s.callers.length = 1 ∧ ∀ key,
      (s.memory.slot? key).isSome ↔ (s.memory.stored? key).isSome ∨ lastShared looks key := by
  let a (phase : Phase String) : Caller String := ⟨⟨⟨"A"⟩, .root⟩, .fetch, phase⟩
  have hfail : Traced ⟨_, [a (.failing 0 "lost")]⟩ [] :=
    ((((Traced.start {}).enter _ .fetch).move [] [] (.createSlot rfl)).move [] []
      (.miss (by decide) rfl)).move [] [] (.fail "lost")
  have hend : Traced ⟨_, [a (.returned (.failed "lost"))]⟩ _ :=
    ((hfail.move [] [] .unlockFailed).move [] [] (.release (by decide))).move [] [] .drop
  exact ⟨_, _, hend, rfl, slot_left_iff hend (by decide) (by simp [a, Phase.answer?])⟩

section Race

variable {m m' : Memory} {callers : List (Caller ε)} {first first' second second' : Caller ε}

theorem Reachable.enter_two (h : Reachable ⟨m, callers⟩) (key : Key) :
    Reachable ⟨m, callers ++ [(⟨key, .fetch, .entered⟩ : Caller ε), ⟨key, .fetch, .entered⟩]⟩ := by
  simpa using (h.step (.enter _ key .fetch)).step (.enter _ key .fetch)

theorem Reachable.move_first (h : Reachable ⟨m, callers ++ [first, second]⟩)
    (hmove : Moves (callers ++ [first, second]) m first m' first') :
    Reachable ⟨m', callers ++ [first', second]⟩ :=
  h.step (.move callers [second] hmove)

theorem Reachable.move_second (h : Reachable ⟨m, callers ++ [first, second]⟩)
    (hmove : Moves (callers ++ [first, second]) m second m' second') :
    Reachable ⟨m', callers ++ [first, second']⟩ := by
  have hstep := Step.move (callers ++ [first]) [] (by simpa using hmove)
  simp only [List.append_assoc, List.cons_append, List.nil_append] at hstep
  exact h.step hstep

/-- Nobody has the lock of a slot that does not exist yet. -/
theorem Safe.unlocked_nextSlot {s : Shared ε} (h : s.Safe) :
    Unlocked s.callers s.memory.nextSlot := by
  intro d hd hlocked
  have hattached : d.phase.attached? = some s.memory.nextSlot := by
    revert hlocked
    cases d.phase <;> simp [Phase.locked?, Phase.attached?, Phase.slot?]
  have hlt := h.wellformed.slot?_lt ((h.fits d hd).attached _ hattached)
  exact Nat.lt_irrefl _ hlt

/-- Two calls for a key without a slot that both fail, each while the other one has a handle of the
slot. -/
theorem Reachable.race (h : Reachable ⟨m, callers⟩) {key : Key} (hslot : m.slot? key = none)
    (error : ε) :
    Reachable ⟨(m.create key).miss.miss, callers ++ [⟨key, .fetch, .returned (.failed error)⟩,
      ⟨key, .fetch, .returned (.failed error)⟩]⟩ := by
  let a (phase : Phase ε) : Caller ε := ⟨key, .fetch, phase⟩
  have hsafe := Safe.of_reachable h
  have hself : (m.create key).slot? key = some m.nextSlot := m.slot?_create_self key
  have hempty : (m.create key).contents m.nextSlot = none := by simp
  have hfree {x y : Phase ε} (hx : x.locked? = none) (hy : y.locked? = none) :
      Unlocked (callers ++ [a x, a y]) m.nextSlot := by
    simp only [Unlocked, List.forall_mem_append, List.forall_mem_cons]
    exact ⟨hsafe.unlocked_nextSlot, by simp [a, hx], by simp [a, hy], by simp⟩
  have hmore {x y : Phase ε} (hx : x.slot? = some m.nextSlot) (hy : y.slot? = some m.nextSlot) :
      2 < (m.create key).miss.miss.handles (callers ++ [a x, a y]) m.nextSlot :=
    Memory.two_lt_handles (hsafe.wellformed.create hslot).miss.miss hself hx hy
  have hwaiting : Reachable
      ⟨m.create key, callers ++ [a (.waiting m.nextSlot), a (.waiting m.nextSlot)]⟩ :=
    ((h.enter_two key).move_first (.createSlot hslot)).move_second (.findSlot hself)
  have hfirst : Reachable ⟨(m.create key).miss,
      callers ++ [a (.releasing m.nextSlot error), a (.waiting m.nextSlot)]⟩ :=
    ((hwaiting.move_first (.miss (hfree rfl rfl) hempty)).move_first (.fail error)).move_first
      .unlockFailed
  have hboth : Reachable ⟨(m.create key).miss.miss,
      callers ++ [a (.releasing m.nextSlot error), a (.releasing m.nextSlot error)]⟩ :=
    ((hfirst.move_second (.miss (hfree rfl rfl) hempty)).move_second (.fail error)).move_second
      .unlockFailed
  have hkept : Reachable ⟨(m.create key).miss.miss, callers ++
      [a (.leaving m.nextSlot (.failed error)), a (.leaving m.nextSlot (.failed error))]⟩ :=
    (hboth.move_first (.keep (hmore rfl rfl))).move_second (.keep (hmore rfl rfl))
  exact (hkept.move_first .drop).move_second .drop

end Race

/-- Any number of keys can each leave an empty slot behind, with nothing but failing calls. -/
theorem exists_leftovers (error : ε) {keys : List Key} (hkeys : keys.Nodup) :
    ∃ s : Shared ε, s.Reachable ∧
      (∀ caller ∈ s.callers, caller.phase = .returned (.failed error)) ∧
      (∀ key, (s.memory.slot? key).isSome ↔ key ∈ keys) ∧ ∀ key, s.memory.stored? key = none := by
  induction keys with
  | nil =>
    refine ⟨_, .start {}, by simp, ?_, ?_⟩
    · simp [Memory.slot?, Memory.clear]
    · simp [Memory.stored?, Memory.slot?, Memory.clear]
  | cons key rest ih =>
    obtain ⟨hfresh, hrest⟩ := List.nodup_cons.1 hkeys
    obtain ⟨⟨m, callers⟩, hreach, hfailed, hslots, hstored⟩ := ih hrest
    have hslot : m.slot? key = none := by
      rw [← Option.not_isSome_iff_eq_none, hslots]
      exact hfresh
    refine ⟨_, hreach.race hslot error, ?_, fun other => ?_, fun other => ?_⟩
    · simpa [or_imp, forall_and] using hfailed
    · by_cases hne : other = key
      · simp [hne, m.slot?_create_self]
      · simp only [Memory.slot?_miss, m.slot?_create_of_ne hne, hslots]
        simp [hne]
    · have hm : m.Wellformed := (Safe.of_reachable hreach).wellformed
      simp only [Memory.stored?_miss, Memory.stored?_create hm hslot]
      exact hstored other

/-- Not only the keys that are stored have a slot once all calls are over. -/
theorem slot_left_after_race : ¬ ∀ s : Shared String, s.Reachable →
    (∀ caller ∈ s.callers, caller.phase.isReturned) →
    (∀ caller ∈ s.callers, caller.phase.answer? ≠ some .brokenOff) →
    ∀ key, (s.memory.slot? key).isSome → (s.memory.stored? key).isSome := by
  intro hall
  let k : Key := ⟨⟨"A"⟩, .root⟩
  obtain ⟨s, hreach, hfailed, hslots, hstored⟩ := exists_leftovers "lost" (List.nodup_singleton k)
  have hslot : (s.memory.slot? k).isSome := (hslots k).2 (List.mem_singleton_self k)
  have hfilled := hall s hreach
    (fun caller hcaller => by simp [hfailed caller hcaller, Phase.isReturned])
    (fun caller hcaller => by simp [hfailed caller hcaller, Phase.answer?]) k hslot
  simp [hstored] at hfilled

end Shared

end Localization.Cache

import Localization.Proofs.Cache.Sharing

namespace Localization.Cache

variable {ε : Type}

/-- What a computation gave when it succeeded, and the key it was for. -/
structure Success where
  key : Key
  resolution : Resolution

namespace Phase

/-- What the call's computation gave, from the step at which it succeeds to the one that stores it. -/
def unstored? : Phase ε → Option Resolution
  | storing _ resolution => some resolution
  | _ => none

/-- What the call's computation gave or, once that is stored, what the call is answered with. -/
def computed? (phase : Phase ε) : Option Resolution :=
  match phase.answer? with
  | some (.computed stored) => some stored.resolution
  | _ => phase.unstored?

theorem unstored?_isSome {phase : Phase ε} (h : phase.unstored?.isSome) :
    ∃ slot, phase.locked? = some slot ∧ phase.attached? = some slot ∧ phase.vacant? = some slot := by
  cases phase with
  | storing slot _ => exact ⟨slot, rfl, rfl, rfl⟩
  | _ => simp [unstored?] at h

theorem computed?_isSome_iff (phase : Phase ε) :
    phase.computed?.isSome ↔ phase.unstored?.isSome ∨ phase.answer?.any Answer.isComputed := by
  unfold computed?
  cases phase.answer? with
  | none => simp
  | some answer => cases answer <;> simp [Answer.isComputed]

end Phase

namespace Caller

/-- The success of the call's computation, until it is stored. -/
def pending? (caller : Caller ε) : Option Success :=
  caller.phase.unstored?.map (.mk caller.key)

/-- The success of the call's computation, stored or not. -/
def success? (caller : Caller ε) : Option Success :=
  caller.phase.computed?.map (.mk caller.key)

/-- A call whose computation is stored is answered with what that gave. -/
theorem success?_of_succeeded {caller : Caller ε} {stored : Stored} (h : caller.succeeded = true)
    (hstored : caller.stored? = some stored) :
    caller.success? = some ⟨caller.key, stored.resolution⟩ := by
  obtain ⟨answer, hanswer, hcomputed⟩ := (Option.any_eq_true _ _).1 h
  rw [stored?, hanswer] at hstored
  cases answer with
  | computed found =>
    obtain rfl : found = stored := Option.some.inj hstored
    simp [success?, Phase.computed?, hanswer]
  | _ => simp [Answer.isComputed] at hcomputed

end Caller

/-- A step adds to what computations gave just what a computation gives at that step. -/
theorem Moves.success? {callers : List (Caller ε)} {m m' : Memory} {caller caller' : Caller ε}
    (hmove : Moves callers m caller m' caller') :
    caller'.success?.toList = caller'.pending?.toList ++ caller.success?.toList := by
  cases hmove <;> rfl

namespace Shared

/-- The states that calls in any order lead to from an empty cache, with what computations gave so
far, the last one first. A call has a success pending after the step at which its computation
succeeds, and after no other. -/
inductive Logged : Shared ε → List Success → Prop where
  | start (m : Memory) : Logged ⟨m.clear, []⟩ []
  | enter {s : Shared ε} {log : List Success} (h : Logged s log) (key : Key) (wish : Wish) :
      Logged { s with callers := s.callers ++ [⟨key, wish, .entered⟩] } log
  | move {m m' : Memory} {caller caller' : Caller ε} {log : List Success}
      (before after : List (Caller ε)) (h : Logged ⟨m, before ++ caller :: after⟩ log)
      (hmove : Moves (before ++ caller :: after) m caller m' caller') :
      Logged ⟨m', before ++ caller' :: after⟩ (caller'.pending?.toList ++ log)

variable {s : Shared ε} {log : List Success}

theorem Logged.reachable (h : s.Logged log) : s.Reachable := by
  induction h with
  | start m => exact .start m
  | enter _ key wish ih => exact ih.step (.enter _ key wish)
  | move before after _ hmove ih => exact ih.step (.move before after hmove)

theorem Reachable.exists_logged (h : s.Reachable) : ∃ log, s.Logged log := by
  induction h with
  | start m => exact ⟨[], .start m⟩
  | step _ hstep ih =>
    obtain ⟨log, hlog⟩ := ih
    cases hstep with
    | enter _ key wish => exact ⟨log, hlog.enter key wish⟩
    | move before after hmove => exact ⟨_, hlog.move before after hmove⟩

/-- The log has the successes of all calls, in whatever order. -/
theorem Logged.perm (h : s.Logged log) : log.Perm (s.callers.filterMap Caller.success?) := by
  simp only [List.filterMap_eq_flatMap_toList]
  induction h with
  | start m => exact .nil
  | enter _ key wish ih =>
    simpa [Caller.success?, Phase.computed?, Phase.answer?, Phase.unstored?] using ih
  | move before after _ hmove ih =>
    simp only [List.flatMap_append, List.flatMap_cons, hmove.success?, List.append_assoc] at ih ⊢
    exact (ih.append_left _).trans (List.perm_append_comm_assoc _ _ _)

variable {pending caller : Caller ε}

/-- While a computation that succeeded is not stored yet, its call has the lock of the key's slot,
which is empty. So no other computation for the key has succeeded. -/
theorem Safe.locked_of_pending (h : s.Safe) (hpending : pending ∈ s.callers)
    (hunstored : pending.phase.unstored?.isSome) :
    ∃ slot, ∀ caller ∈ s.callers, caller.key = pending.key → caller.phase.computed?.isSome →
      caller.phase.locked? = some slot := by
  obtain ⟨slot, -, hattached, hvacant⟩ := Phase.unstored?_isSome hunstored
  have hslot := (h.fits pending hpending).attached slot hattached
  have hempty := (h.fits pending hpending).vacant slot hvacant
  refine ⟨slot, fun caller hcaller hkey hcomputed => ?_⟩
  obtain hown | hsucceeded := (Phase.computed?_isSome_iff _).1 hcomputed
  · obtain ⟨other, hlocked, hother, -⟩ := Phase.unstored?_isSome hown
    have hsame := (h.fits caller hcaller).attached other hother
    rw [hkey, hslot] at hsame
    rwa [Option.some.inj hsame]
  · obtain ⟨stored, hstored⟩ := Option.isSome_iff_exists.1 (caller.stored?_isSome hsucceeded)
    have hfull := (h.fits caller hcaller).stored stored hstored
    simp [hkey, Memory.stored?, hslot, hempty] at hfull

/-- At most one computation for a key has succeeded, stored or not. -/
theorem Safe.countP_computed_le_one (h : s.Safe) (key : Key) :
    s.callers.countP (fun caller => caller.key = key ∧ caller.phase.computed?.isSome) ≤ 1 := by
  by_cases hpending : ∃ pending ∈ s.callers, pending.key = key ∧ pending.phase.unstored?.isSome
  · obtain ⟨pending, hmem, rfl, hunstored⟩ := hpending
    obtain ⟨slot, hlocked⟩ := h.locked_of_pending hmem hunstored
    refine (List.countP_mono_left fun caller hcaller hcaller' => ?_).trans (h.locked slot)
    obtain ⟨hkey, hcomputed⟩ := of_decide_eq_true hcaller'
    exact decide_eq_true (hlocked caller hcaller hkey hcomputed)
  · have hsuccesses : s.callers.countP (fun caller => caller.key = key ∧ caller.succeeded) ≤ 1 := by
      rw [h.successes key]
      split <;> omega
    refine (List.countP_mono_left fun caller hcaller hcaller' => ?_).trans hsuccesses
    obtain ⟨hkey, hcomputed⟩ := of_decide_eq_true hcaller'
    obtain hunstored | hsucceeded := (Phase.computed?_isSome_iff _).1 hcomputed
    · exact absurd ⟨caller, hcaller, hkey, hunstored⟩ hpending
    · exact decide_eq_true ⟨hkey, hsucceeded⟩

namespace Logged

/-- At most one computation for each key succeeds. -/
theorem countP_key_le_one (h : s.Logged log) (key : Key) : log.countP (·.key = key) ≤ 1 := by
  rw [h.perm.countP_eq, List.countP_filterMap]
  refine (List.countP_mono_left fun caller _ hcaller => ?_).trans
    ((Safe.of_reachable h.reachable).countP_computed_le_one key)
  cases hcomputed : caller.phase.computed? with
  | none => simp [Caller.success?, hcomputed] at hcaller
  | some resolution => simpa [Caller.success?, hcomputed] using hcaller

/-- What a call is answered with is what a computation for its key gave. -/
theorem mem_of_stored (h : s.Logged log) (hcaller : caller ∈ s.callers) {stored : Stored}
    (hstored : caller.stored? = some stored) : ⟨caller.key, stored.resolution⟩ ∈ log := by
  obtain ⟨other, hother, hkey, hsucceeded, hsame⟩ :=
    (Safe.of_reachable h.reachable).exists_succeeded hcaller hstored
  rw [h.perm.mem_iff, List.mem_filterMap, ← hkey]
  exact ⟨other, hother, other.success?_of_succeeded hsucceeded hsame⟩

end Logged

end Shared

/-- Whatever the order in which calls of a shared cache take their steps, a call that may still read
or fill a slot has the one that the map has for its key, and no step takes away a slot that is filled
or that another call has a handle of. So at most one computation for each key ever succeeds, all
calls that get a resolution for a key get the same one, which is what that computation gave, and the
counters are the number of filled keys, not only when all calls are over. -/
theorem shared_computed_once {s : Shared ε} (h : s.Reachable) :
    (∀ caller ∈ s.callers, ∀ slot, caller.phase.attached? = some slot →
      s.memory.slot? caller.key = some slot) ∧
    (∀ before caller after m' caller', s.callers = before ++ caller :: after →
      Moves s.callers s.memory caller m' caller' → ∀ key slot, s.memory.slot? key = some slot →
      m'.slot? key ≠ some slot → s.memory.contents slot = none ∧
        ∀ other ∈ before ++ after, other.phase.slot? ≠ some slot) ∧
    (∀ key, s.callers.countP (fun caller => caller.key = key ∧ caller.succeeded) ≤ 1) ∧
    (∀ caller ∈ s.callers, ∀ other ∈ s.callers, caller.key = other.key →
      ∀ stored found, caller.stored? = some stored → other.stored? = some found → stored = found) ∧
    (∀ caller ∈ s.callers, ∀ stored, caller.stored? = some stored →
      ∃ other ∈ s.callers, other.key = caller.key ∧ other.succeeded ∧ other.stored? = some stored) ∧
    (∃ log, s.Logged log) ∧
    (∀ log, s.Logged log → (∀ key, log.countP (·.key = key) ≤ 1) ∧
      ∀ caller ∈ s.callers, ∀ stored, caller.stored? = some stored →
        ⟨caller.key, stored.resolution⟩ ∈ log) ∧
    s.memory.stats.entries = s.memory.stats.computations ∧
    {key : Key | (s.memory.stored? key).isSome}.encard = s.memory.stats.entries := by
  have hsafe := Shared.Safe.of_reachable h
  obtain ⟨c, hsound, hc⟩ := hsafe.sequential
  refine ⟨fun caller hcaller => (hsafe.fits caller hcaller).attached, ?_, fun key => ?_, ?_,
    fun caller hcaller stored hstored => hsafe.exists_succeeded hcaller hstored, h.exists_logged,
    fun log hlog => ⟨hlog.countP_key_le_one, fun caller hcaller stored => hlog.mem_of_stored hcaller⟩,
    ?_, ?_⟩
  · intro before caller after m' caller' hcallers hmove key slot hslot hgone
    obtain ⟨m, callers⟩ := s
    subst hcallers
    exact hsafe.kept_slots hmove hslot hgone
  · rw [hsafe.successes key]
    split <;> omega
  · intro caller hcaller other hother hkey stored found hstored hfound
    have hleft := (hsafe.fits caller hcaller).stored stored hstored
    have hright := (hsafe.fits other hother).stored found hfound
    rw [hkey, hright] at hleft
    exact (Option.some.inj hleft).symm
  · rw [hc.stats]
    exact hsound.entries.trans hsound.computations.symm
  · simp only [hc.stored, hc.stats]
    exact hsound.encard_filled

/-- Two calls race for one key. The first fails while the second waits, so that the slot stays for
the second, which fills it with what it computed. -/
theorem shared_computed_once_after_race :
    let k : Key := ⟨⟨"A"⟩, .root⟩
    let r : Resolution := ⟨⟨"A"⟩, .root, [⟨⟨"A"⟩, .root, none, .empty⟩]⟩
    ∃ s : Shared String, s.Logged [⟨k, r⟩] ∧ s.callers.length = 2 ∧
      s.callers.all (·.phase.isReturned) ∧
      (∃ caller ∈ s.callers, ∃ stored, caller.stored? = some stored ∧ stored.resolution = r) ∧
      s.memory.stats = ⟨1, 0, 2, 1⟩ ∧ {key : Key | (s.memory.stored? key).isSome}.encard = 1 := by
  intro k r
  let a (phase : Phase String) : Caller String := ⟨k, .fetch, phase⟩
  have hstart : Shared.Logged ⟨{}, [a .entered, a .entered]⟩ [] :=
    ((Shared.Logged.start {}).enter k .fetch).enter k .fetch
  have hrace : Shared.Logged ⟨_, [a (.waiting 0), a (.waiting 0)]⟩ [] :=
    (hstart.move [] [a .entered] (.createSlot rfl)).move [a (.waiting 0)] [] (.findSlot rfl)
  have hfail : Shared.Logged ⟨_, [a (.releasing 0 "lost"), a (.waiting 0)]⟩ [] :=
    ((hrace.move [] [a (.waiting 0)] (.miss (by decide) rfl)).move [] [a (.waiting 0)]
      (.fail "lost")).move [] [a (.waiting 0)] .unlockFailed
  have hkept : Shared.Logged ⟨_, [a (.returned (.failed "lost")), a (.computing 0)]⟩ [] :=
    ((hfail.move [] [a (.waiting 0)] (.release (by decide))).move
      [a (.leaving 0 (.failed "lost"))] [] (.miss (by decide) rfl)).move [] [a (.computing 0)] .drop
  have hend : Shared.Logged
      ⟨_, [a (.returned (.failed "lost")), a (.returned (.computed ⟨0, r⟩))]⟩ [⟨k, r⟩] :=
    (((hkept.move [a (.returned (.failed "lost"))] [] (.succeed r)).move
      [a (.returned (.failed "lost"))] [] .store).move [a (.returned (.failed "lost"))] []
      .unlock).move [a (.returned (.failed "lost"))] [] .drop
  obtain ⟨-, -, -, -, -, -, hlogged, -, hfilled⟩ := shared_computed_once hend.reachable
  obtain ⟨-, hanswers⟩ := hlogged _ hend
  have hmem : a (.returned (.computed ⟨0, r⟩)) ∈
      [a (.returned (.failed "lost")), a (.returned (.computed ⟨0, r⟩))] := by simp
  have hgot := List.mem_singleton.1 (hanswers _ hmem ⟨0, r⟩ rfl)
  exact ⟨_, hend, rfl, rfl, ⟨_, hmem, ⟨0, r⟩, rfl, congrArg Success.resolution hgot⟩, by decide,
    hfilled⟩

end Localization.Cache

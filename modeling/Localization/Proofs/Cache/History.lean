import Localization.Proofs.Cache.Sound

namespace Localization.Cache

variable {ε : Type}

/-- The same end with something else made of the result. -/
def Outcome.map {α β : Type} (f : α → β) : Outcome ε α → Outcome ε β
  | done result => .done (f result)
  | failed error => .failed error
  | brokenOff => .brokenOff

namespace Call

/-- The ways a call can end. A computation that ran and gave no result leaves the cache to the
caller as it left it. -/
inductive Ending (call : Call ε) : Prop where
  | found (stored : Stored) (hget : call.before.get? call.key = some stored)
      (houtcome : call.outcome = .done stored) (hafter : call.after = call.before.hit)
  | computed (resolution : Resolution) (c : Cache) (hget : call.before.get? call.key = none)
      (hrun : call.compute.run call.before.miss = (.done resolution, c))
      (houtcome : call.outcome = .done (c.store call.key resolution).1)
      (hafter : call.after = (c.store call.key resolution).2)
  | futile (hget : call.before.get? call.key = none)
      (hrun : (call.compute.run call.before.miss).2 = call.after)
      (hdone : call.outcome.isDone = false)
      (houtcome : call.outcome.map (·.resolution) = (call.compute.run call.before.miss).1)

theorem ending (call : Call ε) : call.Ending := by
  obtain ⟨key, compute, c⟩ := call
  cases hget : c.get? key with
  | some stored =>
    refine .found stored hget ?_ ?_
    · simp [outcome, fetch, fetchWith, hget]
    · simp [after, fetch, fetchWith, hget]
  | none =>
    rcases hrun : compute.run c.miss with ⟨resolution | error | _, c'⟩
    · refine .computed resolution c' hget hrun ?_ ?_
      · simp [outcome, fetch, fetchWith, hget, hrun]
      · simp [after, fetch, fetchWith, hget, hrun]
    · refine .futile hget ?_ ?_ ?_
      · simp [after, fetch, fetchWith, hget, hrun]
      · simp [outcome, fetch, fetchWith, hget, hrun]
      · simp [outcome, fetch, fetchWith, hget, hrun, Outcome.map]
    · refine .futile hget ?_ ?_ ?_
      · simp [after, fetch, fetchWith, hget, hrun]
      · simp [outcome, fetch, fetchWith, hget, hrun]
      · simp [outcome, fetch, fetchWith, hget, hrun, Outcome.map]

theorem ran_eq_true_iff (call : Call ε) : call.ran = true ↔ call.before.get? call.key = none := by
  simp [ran]

/-- A call that ran no computation has a result. -/
theorem ran_of_not_done {call : Call ε} (hdone : call.outcome.isDone = false) : call.ran = true := by
  cases call.ending with
  | found stored _ houtcome _ => simp [houtcome] at hdone
  | computed _ _ hget => exact (ran_eq_true_iff call).2 hget
  | futile hget => exact (ran_eq_true_iff call).2 hget

/-- A call whose computation ran is answered with what that computation gave. -/
theorem map_outcome_of_ran {call : Call ε} (hran : call.ran = true) :
    call.outcome.map (·.resolution) = (call.compute.run call.before.miss).1 := by
  have hnone := (ran_eq_true_iff call).1 hran
  cases call.ending with
  | found stored hget => simp [hnone] at hget
  | computed resolution c _ hrun houtcome => rw [houtcome, hrun]; rfl
  | futile _ _ _ houtcome => exact houtcome

/-- The computation ran and gave no result. -/
def Futile (call : Call ε) : Prop :=
  call.ran = true ∧ call.outcome.isDone = false

/-- The computations that ran are those that succeeded, failed or broke off. -/
theorem countP_ran (calls : List (Call ε)) :
    calls.countP (·.ran) = calls.countP (·.succeeded) + calls.countP (·.outcome.isFailed) +
      calls.countP (·.outcome.isBrokenOff) := by
  induction calls with
  | nil => rfl
  | cons call rest ih =>
    simp only [List.countP_cons, ih]
    have hran := call.ran_of_not_done
    cases houtcome : call.outcome with
    | done stored =>
      cases hcall : call.ran with
      | false => simp [succeeded, houtcome, hcall]
      | true =>
        simp [succeeded, houtcome, hcall]
        omega
    | failed error =>
      have hcall := hran (by rw [houtcome]; rfl)
      simp [succeeded, houtcome, hcall]
      omega
    | brokenOff =>
      have hcall := hran (by rw [houtcome]; rfl)
      simp [succeeded, houtcome, hcall]
      omega

end Call

/-- How the calls for one key follow each other, with what is stored under the key in the end:
computations without a result, then at most one that succeeds, whose resolution is stored, then calls
that are answered with what is stored and run nothing. -/
def History (calls : List (Call ε)) : Option Stored → Prop
  | none => ∀ call ∈ calls, call.Futile
  | some stored =>
    ∃ futile success answers, calls = futile ++ success :: answers ∧
      (∀ call ∈ futile, call.Futile) ∧
      (success.ran = true ∧
        (success.compute.run success.before.miss).1 = .done stored.resolution ∧
        success.outcome = .done stored) ∧
      ∀ call ∈ answers, call.ran = false ∧ call.outcome = .done stored

namespace History

variable {calls : List (Call ε)} {call : Call ε} {stored : Stored}

theorem append_futile (h : History calls none) (hcall : call.Futile) :
    History (calls ++ [call]) none := by
  intro other hother
  rcases List.mem_append.1 hother with hother | hother
  · exact h other hother
  · exact List.mem_singleton.1 hother ▸ hcall

theorem append_success (h : History calls none) (hran : call.ran = true)
    (hgave : (call.compute.run call.before.miss).1 = .done stored.resolution)
    (hdone : call.outcome = .done stored) : History (calls ++ [call]) (some stored) :=
  ⟨calls, call, [], rfl, h, ⟨hran, hgave, hdone⟩, by simp⟩

theorem append_answer (h : History calls (some stored)) (hran : call.ran = false)
    (hdone : call.outcome = .done stored) : History (calls ++ [call]) (some stored) := by
  obtain ⟨futile, success, answers, rfl, hfutile, hsuccess, hanswers⟩ := h
  refine ⟨futile, success, answers ++ [call], by simp, hfutile, hsuccess, ?_⟩
  intro other hother
  rcases List.mem_append.1 hother with hother | hother
  · exact hanswers other hother
  · exact List.mem_singleton.1 hother ▸ ⟨hran, hdone⟩

/-- A call with a result got what is stored. -/
theorem eq_some_of_done {stored? : Option Stored} (h : History calls stored?) (hmem : call ∈ calls)
    (hdone : call.outcome = .done stored) : stored? = some stored := by
  have hnot : ¬ call.Futile := fun hfutile => by simp [Call.Futile, hdone] at hfutile
  cases stored? with
  | none => exact absurd (h call hmem) hnot
  | some found =>
    obtain ⟨futile, success, answers, rfl, hfutile, hsuccess, hanswers⟩ := h
    have hfound : call.outcome = .done found := by
      rcases List.mem_append.1 hmem with hmem | hmem
      · exact absurd (hfutile call hmem) hnot
      · rcases List.mem_cons.1 hmem with rfl | hmem
        · exact hsuccess.2.2
        · exact (hanswers call hmem).2
    rw [hdone] at hfound
    injection hfound with heq
    rw [heq]

/-- What is stored was the result of a call. -/
theorem exists_of_some (h : History calls (some stored)) :
    ∃ call ∈ calls, call.outcome = .done stored := by
  obtain ⟨futile, success, answers, rfl, -, hsuccess, -⟩ := h
  exact ⟨success, by simp, hsuccess.2.2⟩

/-- After a computation without a result the next call computes again. -/
theorem ran_of_futile_before {stored? : Option Stored} (h : History calls stored?)
    {earlier later : List (Call ε)} {next : Call ε}
    (hcalls : calls = earlier ++ call :: next :: later) (hdone : call.outcome.isDone = false) :
    next.ran = true := by
  cases stored? with
  | none => exact (h next (by simp [hcalls])).1
  | some stored =>
    obtain ⟨futile, success, answers, rfl, hfutile, hsuccess, hanswers⟩ := h
    induction futile generalizing earlier with
    | nil =>
      cases earlier with
      | nil =>
        obtain ⟨rfl, -⟩ := List.cons.inj hcalls
        simp [hsuccess.2.2] at hdone
      | cons _ earlier =>
        obtain ⟨-, htail⟩ := List.cons.inj hcalls
        simp [(hanswers call (by simp [htail])).2] at hdone
    | cons first futile ih =>
      cases earlier with
      | nil =>
        obtain ⟨-, htail⟩ := List.cons.inj hcalls
        cases futile with
        | nil => exact (List.cons.inj htail).1 ▸ hsuccess.1
        | cons second _ => exact (List.cons.inj htail).1 ▸ (hfutile second (by simp)).1
      | cons _ earlier =>
        exact ih (List.cons.inj hcalls).2 fun x hx => hfutile x (List.mem_cons_of_mem _ hx)

end History

/-- The cache holds just what came of some calls since it was empty, while computations run for
the busy keys. -/
structure Accounted (calls : List (Call ε)) (busy : List Key) (c : Cache) : Prop where
  sound : c.Sound
  hits : c.hits = calls.countP (!·.ran)
  misses : c.misses = calls.countP (·.ran) + busy.length
  computations : c.computations = calls.countP (·.succeeded)
  history : ∀ key, History (calls.filter (·.key = key)) (c.get? key)
  idle : ∀ key ∈ busy, c.get? key = none

namespace Accounted

variable {calls : List (Call ε)} {busy : List Key} {c : Cache}

theorem cleared (c : Cache) : Accounted ([] : List (Call ε)) [] c.clear where
  sound := .cleared c
  hits := rfl
  misses := rfl
  computations := rfl
  history := by simp [History]
  idle := by simp

/-- A call that finds its key stored. -/
theorem answer (h : Accounted calls busy c) {call : Call ε} {stored : Stored}
    (hbefore : call.before = c) (hget : c.get? call.key = some stored)
    (houtcome : call.outcome = .done stored) : Accounted (calls ++ [call]) busy c.hit := by
  have hran : call.ran = false := by simp [Call.ran, hbefore, hget]
  refine ⟨h.sound.hit, ?_, ?_, ?_, ?_, h.idle⟩
  · simp [List.countP_append, hran, hit, h.hits]
  · simp [List.countP_append, hran, hit, h.misses]
  · simp [List.countP_append, Call.succeeded, hran, hit, h.computations]
  · intro key
    by_cases hkey : call.key = key
    · subst hkey
      have hhistory := h.history call.key
      rw [hget] at hhistory
      simpa [List.filter_append, hget] using hhistory.append_answer hran houtcome
    · simpa [List.filter_append, hkey] using h.history key

/-- A computation starts for a key under which nothing is stored. -/
theorem begin (h : Accounted calls busy c) {key : Key} (hget : c.get? key = none) :
    Accounted calls (key :: busy) c.miss where
  sound := h.sound.miss
  hits := h.hits
  misses := by simp only [miss, h.misses, List.length_cons, Nat.add_assoc]
  computations := h.computations
  history := h.history
  idle := by
    intro other hother
    rcases List.mem_cons.1 hother with rfl | hother
    · exact hget
    · exact h.idle other hother

/-- The computation for a call ends without a result. -/
theorem giveUp {call : Call ε} (h : Accounted calls (call.key :: busy) c) (hfutile : call.Futile) :
    Accounted (calls ++ [call]) busy c := by
  obtain ⟨hran, hdone⟩ := hfutile
  refine ⟨h.sound, ?_, ?_, ?_, ?_, fun key hkey => h.idle key (List.mem_cons_of_mem _ hkey)⟩
  · simp [List.countP_append, hran, h.hits]
  · simp [List.countP_append, hran, h.misses]
    omega
  · simp [List.countP_append, Call.succeeded, hdone, h.computations]
  · intro key
    by_cases hkey : call.key = key
    · subst hkey
      have hget := h.idle call.key List.mem_cons_self
      have hhistory := h.history call.key
      rw [hget] at hhistory ⊢
      simpa [List.filter_append] using hhistory.append_futile ⟨hran, hdone⟩
    · simpa [List.filter_append, hkey] using h.history key

/-- The computation for a call succeeds, and its result is stored. -/
theorem settle {call : Call ε} (h : Accounted calls (call.key :: busy) c) (hfree : call.key ∉ busy)
    (hran : call.ran = true) {resolution : Resolution}
    (hgave : (call.compute.run call.before.miss).1 = .done resolution)
    (houtcome : call.outcome = .done (c.store call.key resolution).1) :
    Accounted (calls ++ [call]) busy (c.store call.key resolution).2 := by
  have hget := h.idle call.key List.mem_cons_self
  refine ⟨h.sound.store hget resolution, ?_, ?_, ?_, ?_, ?_⟩
  · simp [List.countP_append, hran, store, h.hits]
  · simp [List.countP_append, hran, store, h.misses]
    omega
  · simp [List.countP_append, Call.succeeded, hran, houtcome, Outcome.isDone, store, h.computations]
  · intro key
    by_cases hkey : call.key = key
    · subst hkey
      have hhistory := h.history call.key
      rw [hget] at hhistory
      rw [get?_store_self]
      simpa [List.filter_append] using hhistory.append_success hran hgave houtcome
    · rw [get?_store_of_ne c (Ne.symm hkey)]
      simpa [List.filter_append, hkey] using h.history key
  · intro key hkey
    have hne : key ≠ call.key := fun heq => hfree (heq ▸ hkey)
    rw [get?_store_of_ne c hne]
    exact h.idle key (List.mem_cons_of_mem _ hkey)

end Accounted

end Localization.Cache

import Localization.Proofs.Cache.History

namespace Localization.Cache

variable {ε : Type}

/-- A call leaves the cache with nothing under its own key and with all else it held before or got
from nested calls. -/
structure Call.Spares (call : Call ε) : Prop where
  own : call.after.get? call.key = none
  size : call.after.size = call.before.size + call.inner.countP (·.succeeded)
  kept : ∀ key stored, call.before.get? key = some stored → call.after.get? key = some stored
  nested : ∀ inner ∈ call.inner, ∀ stored, inner.outcome = .done stored →
    call.after.get? inner.key = some stored

theorem Accounted.spares {calls : List (Call ε)} {busy : List Key} {call : Call ε}
    (hbefore : Accounted calls busy call.before)
    (hafter : Accounted (calls ++ call.inner) (call.key :: busy) call.after) : call.Spares where
  own := hafter.idle call.key List.mem_cons_self
  size := by
    have hsound := hbefore.sound.computations
    have hsound' := hafter.sound.computations
    rw [hbefore.computations] at hsound
    rw [hafter.computations, List.countP_append] at hsound'
    simp only [Cache.size, hbefore.sound.entries, hafter.sound.entries]
    omega
  kept := by
    intro key stored hget
    have hhistory := hbefore.history key
    rw [hget] at hhistory
    obtain ⟨other, hmem, hdone⟩ := hhistory.exists_of_some
    refine (hafter.history key).eq_some_of_done ?_ hdone
    rw [List.filter_append]
    exact List.mem_append_left _ hmem
  nested := by
    intro inner hmem stored hdone
    exact (hafter.history inner.key).eq_some_of_done (by simp [hmem]) hdone

/-- Running the computation keeps the accounts of the cache, and its calls without a result leave
nothing behind. -/
def Compute.Accountable (compute : Compute ε) : Prop :=
  ∀ ⦃calls : List (Call ε)⦄ ⦃busy : List Key⦄ ⦃c : Cache⦄, Accounted calls busy c →
    (∀ call ∈ compute.calls c, call.key ∉ busy ∧ call.Grounded) →
    Accounted (calls ++ compute.calls c) busy (compute.run c).2 ∧
      ∀ call ∈ compute.calls c, call.Futile → call.Spares

/-- A call keeps the accounts if its computation does. -/
theorem Accounted.call {calls : List (Call ε)} {busy : List Key} (call : Call ε)
    (hcompute : call.compute.Accountable) (h : Accounted calls busy call.before)
    (hall : ∀ x ∈ call.unfold, x.key ∉ busy ∧ x.Grounded) :
    Accounted (calls ++ call.unfold) busy call.after ∧
      ∀ x ∈ call.unfold, x.Futile → x.Spares := by
  obtain ⟨hfree, hgrounded⟩ := hall call (by simp [Call.unfold])
  by_cases hget : call.before.get? call.key = none
  · have hran := (Call.ran_eq_true_iff call).2 hget
    have hinner : call.inner = call.compute.calls call.before.miss := by simp [Call.inner, hran]
    -- The computation runs with the call's own key among the busy ones.
    obtain ⟨hbusy, hspares⟩ := hcompute (h.begin hget) (by
      intro x hx
      rw [← hinner] at hx
      obtain ⟨hxfree, hxgrounded⟩ := hall x (List.mem_append_left _ hx)
      exact ⟨by simpa [hxfree] using hgrounded x hx, hxgrounded⟩)
    rw [← hinner] at hbusy hspares
    rw [Call.unfold, ← List.append_assoc]
    cases call.ending with
    | found stored hsome => simp [hget] at hsome
    | computed resolution c _ hrun houtcome hafter =>
      rw [hrun] at hbusy
      rw [hafter]
      refine ⟨hbusy.settle hfree hran (congrArg Prod.fst hrun) houtcome, fun x hx hfutile => ?_⟩
      rcases List.mem_append.1 hx with hx | hx
      · exact hspares x hx hfutile
      · obtain rfl := List.mem_singleton.1 hx
        simp [Call.Futile, houtcome] at hfutile
    | futile _ hrun hdone =>
      rw [hrun] at hbusy
      refine ⟨hbusy.giveUp ⟨hran, hdone⟩, fun x hx hfutile => ?_⟩
      rcases List.mem_append.1 hx with hx | hx
      · exact hspares x hx hfutile
      · obtain rfl := List.mem_singleton.1 hx
        exact h.spares hbusy
  · have hran : call.ran = false := by simpa using mt (Call.ran_eq_true_iff call).1 hget
    have hunfold : call.unfold = [call] := by simp [Call.unfold, Call.inner, hran]
    rw [hunfold]
    cases call.ending with
    | found stored hsome houtcome hafter =>
      rw [hafter]
      refine ⟨h.answer rfl hsome houtcome, fun x hx hfutile => ?_⟩
      obtain rfl := List.mem_singleton.1 hx
      simp [Call.Futile, hran] at hfutile
    | computed _ _ hnone => exact absurd hnone hget
    | futile hnone => exact absurd hnone hget

theorem Compute.accountable (compute : Compute ε) : compute.Accountable := by
  induction compute with
  | done resolution => intro calls busy c h _; simpa [Compute.calls, Compute.run] using h
  | fail error => intro calls busy c h _; simpa [Compute.calls, Compute.run] using h
  | breakOff => intro calls busy c h _; simpa [Compute.calls, Compute.run] using h
  | nested key inner next ihInner ihNext =>
    intro calls busy c h hall
    rw [calls_nested] at hall ⊢
    rw [run_nested]
    obtain ⟨hcall, hspares⟩ := Accounted.call ⟨key, inner, c⟩ ihInner h
      fun x hx => hall x (List.mem_append_left _ hx)
    cases hbroke : (⟨key, inner, c⟩ : Call ε).outcome.isBrokenOff with
    | true => exact ⟨by simpa using hcall, by simpa using hspares⟩
    | false =>
      rw [hbroke] at hall
      obtain ⟨hnext, hspares'⟩ := ihNext hcall fun x hx => hall x (List.mem_append_right _ hx)
      refine ⟨by simpa using hnext, fun x hx => ?_⟩
      rcases List.mem_append.1 hx with hx | hx
      · exact hspares x hx
      · exact hspares' x hx

/-- An operation that does not empty the cache keeps its accounts. -/
theorem Accounted.apply {calls : List (Call ε)} {c : Cache} (h : Accounted calls [] c)
    {operation : Operation ε} (hclear : operation.isClear = false)
    (hall : ∀ call ∈ operation.calls c, call.Grounded) :
    Accounted (calls ++ operation.calls c) [] (operation.apply c) ∧
      ∀ call ∈ operation.calls c, call.Futile → call.Spares := by
  have hcall (call : Call ε) (hbefore : call.before = c)
      (hgrounded : ∀ x ∈ call.unfold, x.Grounded) :
      Accounted (calls ++ call.unfold) [] call.after ∧
        ∀ x ∈ call.unfold, x.Futile → x.Spares := by
    subst hbefore
    exact Accounted.call call call.compute.accountable h fun x hx => ⟨by simp, hgrounded x hx⟩
  cases operation with
  | resolve catalog locale =>
    have hafter := congrArg Prod.snd (fetch_done_resolve (ε := ε) c catalog locale)
    rw [Operation.apply, ← hafter]
    exact hcall _ rfl hall
  | fetch key compute => exact hcall ⟨key, compute, c⟩ rfl hall
  | get key => simpa [Operation.calls, Operation.call?, Operation.apply] using h
  | clear => simp [Operation.isClear] at hclear

theorem Accounted.run {calls : List (Call ε)} {c : Cache} (h : Accounted calls [] c)
    {operations : List (Operation ε)} (hclear : ∀ operation ∈ operations, operation.isClear = false)
    (hall : ∀ call ∈ callsOf operations c, call.Grounded) :
    Accounted (calls ++ callsOf operations c) [] (run operations c) ∧
      ∀ call ∈ callsOf operations c, call.Futile → call.Spares := by
  induction operations generalizing calls c with
  | nil => simpa [callsOf, Cache.run] using h
  | cons operation rest ih =>
    simp only [callsOf] at hall ⊢
    obtain ⟨happly, hspares⟩ := h.apply (hclear operation List.mem_cons_self)
      fun x hx => hall x (List.mem_append_left _ hx)
    obtain ⟨hrest, hspares'⟩ := ih happly (fun x hx => hclear x (List.mem_cons_of_mem _ hx))
      fun x hx => hall x (List.mem_append_right _ hx)
    refine ⟨by simpa [Cache.run] using hrest, fun x hx => ?_⟩
    rcases List.mem_append.1 hx with hx | hx
    · exact hspares x hx
    · exact hspares' x hx

/-- An operation that makes a call answers with that call's outcome. -/
theorem Operation.answer?_eq {operation : Operation ε} {c : Cache} {call : Call ε}
    (hcall : operation.call? c = some call) : operation.answer? c = some call.outcome := by
  cases operation with
  | resolve catalog locale =>
    obtain rfl := Option.some.inj hcall
    rw [answer?, Call.outcome, fetch_done_resolve]
  | fetch key compute =>
    obtain rfl := Option.some.inj hcall
    rfl
  | get key => simp [call?] at hcall
  | clear => simp [call?] at hcall

theorem callsOf_append (first second : List (Operation ε)) (c : Cache) :
    callsOf (first ++ second) c = callsOf first c ++ callsOf second (run first c) := by
  induction first generalizing c with
  | nil => rfl
  | cons operation rest ih => simp [callsOf, Cache.run, ih]

/-- The call that an operation makes is one of the calls of all operations. -/
theorem mem_callsOf (before after : List (Operation ε)) {operation : Operation ε} {c : Cache}
    {call : Call ε} (hcall : operation.call? (run before c) = some call) :
    call ∈ callsOf (before ++ operation :: after) c := by
  rw [callsOf_append, callsOf]
  have hown : call ∈ operation.calls (run before c) := by
    simp [Operation.calls, hcall, Call.unfold]
  exact List.mem_append_right _ (List.mem_append_left _ hown)

/-- Between two times a cache is emptied, each key is computed with success at most once: the
resolution that this computation gave is stored, and every later call for the key gets it and
computes nothing. A computation that fails or breaks off leaves nothing under its key, so that the
next call computes again, and takes nothing away from what others stored. Whatever a computation
gave, its call is answered with, and the counters tell what happened. Nested calls count like all
others; they may be for any key that is not being computed. -/
theorem computed_once_until_cleared (start : Cache) (operations : List (Operation ε))
    (hclear : ∀ operation ∈ operations, operation.isClear = false)
    (hgrounded : ∀ call ∈ callsOf operations start.clear, call.Grounded) :
    let calls := callsOf operations start.clear
    let c := run operations start.clear
    (∀ before operation after, operations = before ++ operation :: after →
      ∀ call, operation.call? (run before start.clear) = some call →
        call ∈ calls ∧ operation.answer? (run before start.clear) = some call.outcome) ∧
    (∀ call ∈ calls, call.ran = true →
      call.outcome.map (·.resolution) = (call.compute.run call.before.miss).1) ∧
    (∀ key, History (calls.filter (·.key = key)) (c.get? key)) ∧
    (∀ key earlier call next later,
      calls.filter (·.key = key) = earlier ++ call :: next :: later →
      call.outcome.isDone = false → next.ran = true) ∧
    (∀ key other stored found, c.get? key = some stored → c.get? other = some found →
      stored.serial = found.serial → key = other) ∧
    (∀ call ∈ calls, call.outcome.isDone = false → call.Spares) ∧
    c.stats.entries = c.size ∧ c.stats.entries = c.stats.computations ∧
    {key : Key | (c.get? key).isSome}.encard = c.stats.entries ∧
    c.stats.misses = c.stats.computations + calls.countP (·.outcome.isFailed) +
      calls.countP (·.outcome.isBrokenOff) ∧
    c.stats.hits + c.stats.misses = calls.length := by
  intro calls c
  obtain ⟨haccounts, hspares⟩ := (Accounted.cleared start).run hclear hgrounded
  rw [List.nil_append] at haccounts
  refine ⟨?_, fun call _ => Call.map_outcome_of_ran, haccounts.history, ?_, ?_, ?_, rfl, ?_,
    haccounts.sound.encard_filled, ?_, ?_⟩
  · rintro before operation after rfl call hcall
    exact ⟨mem_callsOf before after hcall, Operation.answer?_eq hcall⟩
  · intro key earlier call next later hcalls hdone
    exact (haccounts.history key).ran_of_futile_before hcalls hdone
  · intro key other stored found hstored hfound hserial
    exact haccounts.sound.key_unique hstored hfound hserial
  · intro call hmem hdone
    exact hspares call hmem ⟨call.ran_of_not_done hdone, hdone⟩
  · exact haccounts.sound.entries.trans haccounts.sound.computations.symm
  · change c.misses = c.computations + _ + _
    rw [haccounts.misses, haccounts.computations, ← Call.countP_ran]
    rfl
  · change c.hits + c.misses = _
    have hlength : calls.length = _ :=
      List.length_eq_countP_add_countP (fun call : Call ε => call.ran)
    rw [haccounts.hits, haccounts.misses, List.length_nil, Nat.add_zero, hlength, Nat.add_comm]
    simp [calls]

/-- A computation breaks off after a nested call, and the next one for its key succeeds. What it
gave the last operation is answered with. -/
theorem computed_once_after_break_off :
    let a : Key := ⟨⟨"A"⟩, .root⟩
    let b : Key := ⟨⟨"B"⟩, .root⟩
    let of (key : Key) : Resolution :=
      ⟨key.interface, key.locale, [⟨key.interface, key.locale, none, .empty⟩]⟩
    let lost : Operation String := .fetch a (.nested b (.done (of b)) .breakOff)
    let earlier : List (Operation String) :=
      [lost, .get a, .fetch a (.nested b (.fail "unused") (.done (of a)))]
    let last : Operation String := .fetch a (.fail "unused")
    let operations := earlier ++ [last]
    let start : Cache := ({} : Cache).clear
    let calls := callsOf operations start
    let c := run operations start
    (∀ operation ∈ operations, operation.isClear = false) ∧
    (∀ call ∈ calls, call.Grounded) ∧
    (∃ call, lost.call? start = some call ∧ call.Spares) ∧
    History (calls.filter (·.key = a)) (some ⟨1, of a⟩) ∧
    (last.answer? (run earlier start)).map (·.map (·.resolution)) = some (.done (of a)) ∧
    c.stats.hits + c.stats.misses = 5 := by
  intro a b of lost earlier last operations start calls c
  have hclear : ∀ operation ∈ operations, operation.isClear = false := by decide
  have hgrounded : ∀ call ∈ calls, call.Grounded := by decide
  obtain ⟨hanswers, -, hhistory, -, -, hspares, -, -, -, -, hcalls⟩ :=
    computed_once_until_cleared {} operations hclear hgrounded
  have hstored : c.get? a = some ⟨1, of a⟩ := by decide
  have hlost := hanswers [] lost _ rfl _ rfl
  refine ⟨hclear, hgrounded, ⟨_, rfl, hspares _ hlost.1 rfl⟩, hstored ▸ hhistory a, ?_,
    hcalls.trans (by decide)⟩
  obtain ⟨-, hlast⟩ := hanswers earlier last [] rfl _ rfl
  rw [hlast]
  rfl

end Localization.Cache

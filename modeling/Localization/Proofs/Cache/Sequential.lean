import Mathlib.Logic.Relation
import Localization.Proofs.Cache.History
import Localization.Proofs.Cache.Sharing

namespace Localization.Cache

variable {ε : Type}

/-- The outcome of a call for a resolution that was answered so. -/
def Answer.outcome? : Answer ε → Option (Outcome ε Stored)
  | found stored => some (.done stored)
  | computed stored => some (.done stored)
  | failed error => some (.failed error)
  | brokenOff => some .brokenOff
  | read _ => none

/-- The caller has returned with the outcome of the call. -/
def Caller.Repeats (caller : Caller ε) (call : Call ε) : Prop :=
  caller.key = call.key ∧
    ∃ answer, caller.phase = .returned answer ∧ answer.outcome? = some call.outcome

/-- No caller that has a lock is there for the key. -/
def Unclaimed (callers : List (Caller ε)) (key : Key) : Prop :=
  ∀ caller ∈ callers, caller.phase.locked?.isSome → caller.key ≠ key

theorem Unclaimed.append {callers more : List (Caller ε)} {key : Key} (h : Unclaimed callers key)
    (hmore : Unclaimed more key) : Unclaimed (callers ++ more) key :=
  List.forall_mem_append.2 ⟨h, hmore⟩

/-- A caller that has returned has no lock. -/
theorem Unclaimed.of_returned {gone : List (Caller ε)}
    (hgone : ∀ caller ∈ gone, caller.phase.isReturned) (key : Key) : Unclaimed gone key := by
  intro d hd hlocked
  have hreturned := hgone d hd
  revert hlocked hreturned
  cases d.phase <;> simp [Phase.locked?, Phase.isReturned]

namespace Shared

abbrev Steps : Shared ε → Shared ε → Prop :=
  Relation.ReflTransGen Step

theorem Reachable.steps {s s' : Shared ε} (h : s.Reachable) (hsteps : Steps s s') :
    s'.Reachable := by
  induction hsteps with
  | refl => exact h
  | tail _ hstep ih => exact ih.step hstep

namespace Safe

variable {m : Memory} {callers : List (Caller ε)} {c : Cache}

theorem steps {s s' : Shared ε} (h : s.Safe) (hsteps : Steps s s') : s'.Safe := by
  induction hsteps with
  | refl => exact h
  | tail _ hstep ih => exact ih.step hstep

/-- A locked slot is the one of the key that its holder is there for. -/
theorem unlocked_of_unclaimed (h : Safe ⟨m, callers⟩) {key : Key} {slot : Nat}
    (hslot : m.slot? key = some slot) (hkey : Unclaimed callers key) : Unlocked callers slot := by
  intro d hd hlocked
  have hattached : d.phase.attached? = some slot := by
    revert hlocked
    cases d.phase <;> simp [Phase.locked?, Phase.attached?, Phase.slot?]
  have hown := (h.fits d hd).attached slot hattached
  exact hkey d hd (by simp [hlocked]) (h.wellformed.key_unique hown hslot)

/-- A call that comes in waits for nobody at the slot of its key, which is created if need be. -/
theorem arrive (h : Safe ⟨m, callers⟩) (hc : m.Represents c) {key : Key}
    (hkey : Unclaimed callers key) :
    ∃ m' slot, Steps ⟨m, callers⟩ ⟨m', callers ++ [⟨key, .fetch, .waiting slot⟩]⟩ ∧
      m'.Represents c ∧ m'.contents slot = c.get? key ∧
      Unlocked (callers ++ [(⟨key, .fetch, .waiting slot⟩ : Caller ε)]) slot := by
  have henter : Steps ⟨m, callers⟩ ⟨m, callers ++ [(⟨key, .fetch, .entered⟩ : Caller ε)]⟩ :=
    .single (.enter ⟨m, callers⟩ key .fetch)
  obtain ⟨m', slot, hwait, hc', hslot⟩ : ∃ m' slot,
      Steps ⟨m, callers⟩ ⟨m', callers ++ [(⟨key, .fetch, .waiting slot⟩ : Caller ε)]⟩ ∧
        m'.Represents c ∧ m'.slot? key = some slot := by
    cases hslot : m.slot? key with
    | some slot => exact ⟨m, slot, henter.tail (.move callers [] (.findSlot hslot)), hc, hslot⟩
    | none =>
      exact ⟨m.create key, m.nextSlot, henter.tail (.move callers [] (.createSlot hslot)),
        hc.create h.wellformed hslot, m.slot?_create_self key⟩
  refine ⟨m', slot, hwait, hc', ?_, ?_⟩
  · rw [← hc'.stored key]
    simp [Memory.stored?, hslot]
  · exact (h.steps hwait).unlocked_of_unclaimed hslot
      (hkey.append (by simp [Unclaimed, Phase.locked?]))

end Safe

/-- The callers can take steps at whose end the memory holds what the cache holds, and new callers
have come and gone, some of them with the outcomes of the calls. -/
def Follows (m : Memory) (callers : List (Caller ε)) (calls : List (Call ε)) (c : Cache) : Prop :=
  ∃ m' gone, Steps ⟨m, callers⟩ ⟨m', callers ++ gone⟩ ∧ m'.Represents c ∧
    (∀ caller ∈ gone, caller.phase.isReturned) ∧
    ∀ call ∈ calls, ∃ caller ∈ gone, caller.Repeats call

end Shared

/-- The callers can follow the computation, whatever the cache it runs on, as long as nobody keeps
it from the slots that it asks for. -/
def Compute.Followed (compute : Compute ε) : Prop :=
  ∀ ⦃m : Memory⦄ ⦃callers : List (Caller ε)⦄ ⦃c : Cache⦄, Shared.Safe ⟨m, callers⟩ →
    m.Represents c → (∀ call ∈ compute.calls c, call.Grounded ∧ Unclaimed callers call.key) →
    Shared.Follows m callers (compute.calls c) (compute.run c).2

namespace Shared

variable {m : Memory} {callers : List (Caller ε)}

/-- A call that finds nothing gets to the end of its computation. -/
theorem Safe.reach_end {call : Call ε} (h : Safe ⟨m, callers⟩) (hc : m.Represents call.before)
    (hcompute : call.compute.Followed)
    (hall : ∀ x ∈ call.unfold, x.Grounded ∧ Unclaimed callers x.key)
    (hget : call.before.get? call.key = none) :
    ∃ m' slot gone, Steps ⟨m, callers⟩
        ⟨m', callers ++ ⟨call.key, .fetch, .computing slot⟩ :: gone⟩ ∧
      m'.Represents (call.compute.run call.before.miss).2 ∧
      (∀ caller ∈ gone, caller.phase.isReturned) ∧
      ∀ x ∈ call.inner, ∃ caller ∈ gone, caller.Repeats x := by
  obtain ⟨hgrounded, hunclaimed⟩ := hall call (by simp [Call.unfold])
  have hinner : call.inner = call.compute.calls call.before.miss := by
    simp [Call.inner, (Call.ran_eq_true_iff call).2 hget]
  obtain ⟨m', slot, harrive, hc', hcontents, hlock⟩ := h.arrive hc hunclaimed
  have hmiss : Steps ⟨m, callers⟩
      ⟨m'.miss, callers ++ [(⟨call.key, .fetch, .computing slot⟩ : Caller ε)]⟩ :=
    harrive.tail (.move callers [] (.miss hlock (hcontents.trans hget)))
  -- The calls of the computation are for other keys than its own, which is locked now.
  obtain ⟨m'', gone, hsteps, hc'', hgone, hrepeats⟩ := hcompute (h.steps hmiss) hc'.miss (by
    rw [← hinner]
    intro x hx
    obtain ⟨hx', hfree⟩ := hall x (List.mem_append_left _ hx)
    refine ⟨hx', hfree.append ?_⟩
    simpa [Unclaimed, Phase.locked?] using (hgrounded x hx).symm)
  refine ⟨m'', slot, gone, hmiss.trans ?_, hc'', hgone, by rwa [hinner]⟩
  simpa using hsteps

theorem Follows.nothing {c : Cache} (hc : m.Represents c) : Follows m callers [] c :=
  ⟨m, [], by simpa using .refl, hc, by simp, by simp⟩

/-- The callers have followed a call once it is answered with its outcome, after the calls that its
computation made. -/
theorem Follows.of_returned {m' : Memory} {call : Call ε} (answer : Answer ε)
    (gone : List (Caller ε)) (hanswer : answer.outcome? = some call.outcome)
    (hsteps : Steps ⟨m, callers⟩ ⟨m', callers ++ ⟨call.key, .fetch, .returned answer⟩ :: gone⟩)
    (hc : m'.Represents call.after) (hgone : ∀ caller ∈ gone, caller.phase.isReturned)
    (hrepeats : ∀ x ∈ call.inner, ∃ caller ∈ gone, caller.Repeats x) :
    Follows m callers call.unfold call.after := by
  refine ⟨m', _, hsteps, hc, List.forall_mem_cons.2 ⟨rfl, hgone⟩, ?_⟩
  refine List.forall_mem_append.2 ⟨fun x hx => ?_, List.forall_mem_singleton.2 ?_⟩
  · obtain ⟨caller, hcaller, hsame⟩ := hrepeats x hx
    exact ⟨caller, List.mem_cons_of_mem _ hcaller, hsame⟩
  · exact ⟨_, List.mem_cons_self, rfl, answer, rfl, hanswer⟩

/-- The callers can follow a call if they can follow its computation. -/
theorem Follows.of_call (call : Call ε) (h : Safe ⟨m, callers⟩) (hc : m.Represents call.before)
    (hcompute : call.compute.Followed)
    (hall : ∀ x ∈ call.unfold, x.Grounded ∧ Unclaimed callers x.key) :
    Follows m callers call.unfold call.after := by
  obtain ⟨-, hunclaimed⟩ := hall call (by simp [Call.unfold])
  cases call.ending with
  | found stored hget houtcome hafter =>
    have hinner : call.inner = [] := by simp [Call.inner, Call.ran, hget]
    obtain ⟨m', slot, harrive, hc', hcontents, hlock⟩ := h.arrive hc hunclaimed
    refine .of_returned (.found stored) [] (by rw [houtcome]; rfl) ?_
      (by rw [hafter]; exact hc'.hit) (by simp) (by simp [hinner])
    exact ((harrive.tail (.move callers [] (.hit hlock (hcontents.trans hget)))).tail
      (.move callers [] .unlock)).tail (.move callers [] .drop)
  | computed resolution c' hget hrun houtcome hafter =>
    obtain ⟨m', slot, gone, hsteps, hc', hgone, hrepeats⟩ := h.reach_end hc hcompute hall hget
    have hsafe := h.steps hsteps
    obtain ⟨hstored, hstore⟩ :=
      hc'.store hsafe.wellformed (hsafe.fits_self.attached slot rfl) resolution
    rw [hrun] at hstored hstore
    refine .of_returned (.computed (m'.store slot resolution).1) gone ?_ ?_ (hafter ▸ hstore) hgone
      hrepeats
    · rw [houtcome, ← hstored]
      rfl
    · exact (((hsteps.tail (.move callers gone (.succeed resolution))).tail
        (.move callers gone .store)).tail (.move callers gone .unlock)).tail
        (.move callers gone .drop)
  | futile hget hrun hdone =>
    obtain ⟨m', slot, gone, hsteps, hc', hgone, hrepeats⟩ := h.reach_end hc hcompute hall hget
    rw [hrun] at hc'
    cases hcall : call.outcome with
    | done stored => simp [hcall] at hdone
    | failed error =>
      have hfail := (hsteps.tail (.move callers gone (.fail error))).tail
        (.move callers gone .unlockFailed)
      have hrelease := (h.steps hfail).unlocked_of_two_handles
      have hend := (hfail.tail (.move callers gone (.release hrelease))).tail
        (.move callers gone .drop)
      exact .of_returned (.failed error) gone (by rw [hcall]; rfl) hend
        (hc'.release _ call.key slot) hgone hrepeats
    | brokenOff =>
      refine .of_returned .brokenOff gone (by rw [hcall]; rfl) ?_ hc' hgone hrepeats
      exact ((hsteps.tail (.move callers gone .breakOff)).tail (.move callers gone .unlock)).tail
        (.move callers gone .drop)

/-- What the callers follow first and what they follow then they follow in one. -/
theorem Follows.append {calls calls' : List (Call ε)} {c c' : Cache} (h : Safe ⟨m, callers⟩)
    (hfirst : Follows m callers calls c)
    (hthen : ∀ m' gone, Safe ⟨m', callers ++ gone⟩ → m'.Represents c →
      (∀ caller ∈ gone, caller.phase.isReturned) → Follows m' (callers ++ gone) calls' c') :
    Follows m callers (calls ++ calls') c' := by
  obtain ⟨m', gone, hsteps, hc, hgone, hrepeats⟩ := hfirst
  obtain ⟨m'', gone', hsteps', hc', hgone', hrepeats'⟩ := hthen m' gone (h.steps hsteps) hc hgone
  refine ⟨m'', gone ++ gone', ?_, hc', List.forall_mem_append.2 ⟨hgone, hgone'⟩, ?_⟩
  · exact hsteps.trans (by simpa using hsteps')
  · refine List.forall_mem_append.2 ⟨fun x hx => ?_, fun x hx => ?_⟩
    · obtain ⟨caller, hcaller, hsame⟩ := hrepeats x hx
      exact ⟨caller, List.mem_append_left _ hcaller, hsame⟩
    · obtain ⟨caller, hcaller, hsame⟩ := hrepeats' x hx
      exact ⟨caller, List.mem_append_right _ hcaller, hsame⟩

end Shared

theorem Compute.followed (compute : Compute ε) : compute.Followed := by
  induction compute with
  | done resolution => exact fun m callers c _ hc _ => .nothing hc
  | fail error => exact fun m callers c _ hc _ => .nothing hc
  | breakOff => exact fun m callers c _ hc _ => .nothing hc
  | nested key inner next ihInner ihNext =>
    intro m callers c h hc hall
    rw [calls_nested] at hall ⊢
    rw [run_nested]
    have hcall := Shared.Follows.of_call ⟨key, inner, c⟩ h hc ihInner
      fun x hx => hall x (List.mem_append_left _ hx)
    refine hcall.append h fun m' gone h' hc' hgone => ?_
    cases hbroke : (⟨key, inner, c⟩ : Call ε).outcome.isBrokenOff with
    | true => exact .nothing hc'
    | false =>
      rw [hbroke] at hall
      refine ihNext h' hc' fun x hx => ?_
      obtain ⟨hgrounded, hfree⟩ := hall x (List.mem_append_right _ hx)
      exact ⟨hgrounded, hfree.append (.of_returned hgone _)⟩

namespace Shared

variable {m : Memory} {callers : List (Caller ε)}

/-- What the owner of a cache does with it the callers of a shared one can do, save emptying it. To
look at what is stored takes no step of theirs. -/
theorem Follows.of_operation {c : Cache} (h : Safe ⟨m, callers⟩) (hc : m.Represents c)
    {operation : Operation ε} (hclear : operation.isClear = false)
    (hall : ∀ call ∈ operation.calls c, call.Grounded ∧ Unclaimed callers call.key) :
    Follows m callers (operation.calls c) (operation.apply c) := by
  cases operation with
  | resolve catalog locale =>
    have hafter := congrArg Prod.snd (fetch_done_resolve (ε := ε) c catalog locale)
    rw [Operation.apply, ← hafter]
    exact Follows.of_call ⟨_, .done (catalog.resolve locale), c⟩ h hc (Compute.followed _) hall
  | fetch key compute => exact Follows.of_call ⟨key, compute, c⟩ h hc compute.followed hall
  | get key => exact .nothing hc
  | clear => simp [Operation.isClear] at hclear

theorem Follows.of_run {c : Cache} (h : Safe ⟨m, callers⟩) (hc : m.Represents c)
    {operations : List (Operation ε)}
    (hclear : ∀ operation ∈ operations, operation.isClear = false)
    (hall : ∀ call ∈ callsOf operations c, call.Grounded ∧ Unclaimed callers call.key) :
    Follows m callers (callsOf operations c) (run operations c) := by
  induction operations generalizing m callers c with
  | nil => exact .nothing hc
  | cons operation rest ih =>
    simp only [callsOf] at hall ⊢
    have hfirst := Follows.of_operation h hc (hclear operation List.mem_cons_self)
      fun x hx => hall x (List.mem_append_left _ hx)
    refine hfirst.append h fun m' gone h' hc' hgone => ?_
    refine ih h' hc' (fun x hx => hclear x (List.mem_cons_of_mem _ hx)) fun x hx => ?_
    obtain ⟨hgrounded, hfree⟩ := hall x (List.mem_append_right _ hx)
    exact ⟨hgrounded, hfree.append (.of_returned hgone _)⟩

/-- A run of a cache is one of the orders in which the callers of a shared cache can take their
steps: each call comes back with its outcome, and what is stored and counted is the same. -/
theorem reachable_of_run (start : Cache) (operations : List (Operation ε))
    (hclear : ∀ operation ∈ operations, operation.isClear = false)
    (hgrounded : ∀ call ∈ callsOf operations start.clear, call.Grounded) :
    ∃ s : Shared ε, s.Reachable ∧ s.memory.Represents (run operations start.clear) ∧
      (∀ caller ∈ s.callers, caller.phase.isReturned) ∧
      ∀ call ∈ callsOf operations start.clear, ∃ caller ∈ s.callers, caller.Repeats call := by
  have hstart : Reachable (⟨({ nextSerial := start.nextSerial } : Memory).clear, []⟩ : Shared ε) :=
    .start _
  have hc : ({ nextSerial := start.nextSerial } : Memory).clear.Represents start.clear :=
    ⟨by simp [Memory.stored?, Memory.slot?, Memory.clear], rfl, rfl⟩
  obtain ⟨m, gone, hsteps, hrun, hgone, hrepeats⟩ :=
    Follows.of_run (Safe.of_reachable hstart) hc hclear fun call hcall =>
      ⟨hgrounded call hcall, by simp [Unclaimed]⟩
  exact ⟨⟨m, gone⟩, hstart.steps hsteps, hrun, hgone, hrepeats⟩

end Shared

end Localization.Cache

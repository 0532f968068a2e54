import Localization.Generation.Crew

namespace Localization.Generation

/-- What a pass learns or decides while it works on a job. -/
inductive Event where
  /-- The oracle answers for the job's interface. -/
  | told (job : Job) (answer : Except Error (List Method))
  /-- The cache is asked for a locale of the job's interface. -/
  | asked (job : Job) (locale : Locale)
  /-- The job is bound for a locale, or cannot be. -/
  | bound (job : Job) (locale : Locale) (result : Except Error Artifact)

/-- What happens in the next step of a task. -/
def Task.events (t : Task) (config : Config) (oracle : Oracle) : List Event :=
  match t.stage with
  | .waiting => [.told t.job (oracle t.job.interface)]
  | .resolving _ (locale :: _) => [.asked t.job locale]
  | .binding methods locale _ resolution =>
    [.bound t.job locale (bindMethods config t.job methods locale resolution)]
  | _ => []

/-- The job for which a locale of an interface was asked for first. -/
def firstAsked? (events : List Event) (key : Cache.Key) : Option Job :=
  events.findSome? fun
    | .asked job locale =>
      if job.interface = key.interface ∧ locale = key.locale then some job else none
    | _ => none

namespace Crew

/-- The states that the workers can bring a run to, in any order of their steps, with what happened
on the way. The oracle may answer otherwise each time that it is asked. -/
inductive Run {σ : Type} (p : Pass) (jobs : List Job) (emitter : Emitter σ) (kept : σ) :
    List Event → Crew σ → Prop where
  | start : Run p jobs emitter kept [] (start p jobs kept)
  | move {events : List Event} {s s' : Shared σ} {t t' : Task} {deliveries sent : List Delivery}
      (before after : List Task) (oracle : Oracle)
      (h : Run p jobs emitter kept events ⟨before ++ t :: after, s, deliveries⟩)
      (hmove : Moves p oracle emitter s t s' t' sent)
      (hfree : t.isWaiting → (before ++ after).countP Task.isInHand < p.config.workers)
      (hlock : ∀ key, t.wanted? = some key →
        ∀ other ∈ before ++ after, other.computed? ≠ some key) :
      Run p jobs emitter kept (events ++ t.events p.config oracle)
        ⟨before ++ t' :: after, s', deliveries ++ sent⟩

end Crew

namespace Pass

/-- What happens when one interface is bound for a locale. -/
def bindEvents (p : Pass) (job : Job) (oracle : Oracle) (locale : Locale) : List Event :=
  .told job (oracle job.interface) ::
    match oracle job.interface with
    | .error _ => []
    | .ok _ => [.asked job locale, .bound job locale (p.bind job oracle locale).1]

/-- The states of a pass between its calls, with what happened in them. -/
inductive History (config : Config) : List Event → Pass → Prop where
  | start {p : Pass} (h : Pass.start config = .ok p) : History config [] p
  | bind {events : List Event} {p : Pass} (h : History config events p) (job : Job)
      (oracle : Oracle) (locale : Locale) :
      History config (events ++ p.bindEvents job oracle locale) (p.bind job oracle locale).2
  | run {σ : Type} {events more : List Event} {p : Pass} {jobs : List Job} {emitter : Emitter σ}
      {kept : σ} {c : Crew σ} (h : History config events p)
      (hrun : Crew.Run p jobs emitter kept more c) (hfinished : c.isFinished) :
      History config (events ++ more) { p with cache := c.shared.cache }

end Pass

end Localization.Generation

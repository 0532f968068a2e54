import Localization.Generation.Pass

namespace Localization.Generation

/-- How far a worker has come with an interface, with the methods that the oracle told and the
locales that are still to be bound. -/
inductive Stage where
  | waiting
  /-- The cache is to be asked for the first of the locales. -/
  | resolving (methods : List Method) (locales : List Locale)
  /-- The cache has nothing for the locale. -/
  | computing (methods : List Method) (locale : Locale) (rest : List Locale)
  | binding (methods : List Method) (locale : Locale) (rest : List Locale) (resolution : Resolution)
  /-- The emitter does not have the artifact yet. -/
  | emitting (methods : List Method) (artifact : Artifact) (rest : List Locale)
  | finished
deriving DecidableEq

/-- A job with the report on it so far. -/
structure Task where
  job : Job
  report : JobReport
  stage : Stage

namespace Task

def ofJob (job : Job) : Task where
  job
  report := { interface := job.interface }
  stage := .waiting

def isWaiting (t : Task) : Bool :=
  t.stage = .waiting

def isFinished (t : Task) : Bool :=
  t.stage = .finished

/-- Whether a worker has the task in hand. -/
def isInHand (t : Task) : Bool :=
  !t.isWaiting && !t.isFinished

/-- The key that the cache is to be asked for next. -/
def wanted? (t : Task) : Option Cache.Key :=
  match t.stage with
  | .resolving _ (locale :: _) => some { interface := t.job.interface, locale }
  | _ => none

/-- The key whose resolution is being computed. -/
def computed? (t : Task) : Option Cache.Key :=
  match t.stage with
  | .computing _ locale _ => some { interface := t.job.interface, locale }
  | _ => none

end Task

/-- An artifact that was handed to the emitter, and what the emitter answered. -/
structure Delivery where
  artifact : Artifact
  answer : Except Error Unit

variable {σ : Type}

namespace Shared

def withCache (s : Shared σ) (cache : Cache) : Shared σ :=
  { s with cache }

/-- The state with a class among those that were handed to the emitter. If the configuration does
not ask for reuse, they are not kept. -/
def mark (s : Shared σ) (config : Config) (interface : Interface) (className : String) : Shared σ :=
  { s with
    classes :=
      if config.reuseEquivalentArtifacts then (interface, className) :: s.classes else s.classes }

def withEmitter (s : Shared σ) (emitter : σ) : Shared σ :=
  { s with emitter }

end Shared

/-- One step of the work on one interface, with the artifacts that it hands to the emitter. Each
step looks at what the interfaces share once at most, so that it is one whole. -/
inductive Moves (p : Pass) (oracle : Oracle) (emitter : Emitter σ) :
    Shared σ → Task → Shared σ → Task → List Delivery → Prop where
  | refuse {s job report error} (horacle : oracle job.interface = .error error) :
      Moves p oracle emitter s ⟨job, report, .waiting⟩
        s ⟨job, { report with error? := some error }, .finished⟩ []
  | take {s job report methods} (horacle : oracle job.interface = .ok methods) :
      Moves p oracle emitter s ⟨job, report, .waiting⟩
        s ⟨job, report, .resolving methods p.locales⟩ []
  | finish {s job report methods} :
      Moves p oracle emitter s ⟨job, report, .resolving methods []⟩ s ⟨job, report, .finished⟩ []
  | hit {s job report methods locale rest stored}
      (hget : s.cache.get? { interface := job.interface, locale } = some stored) :
      Moves p oracle emitter s ⟨job, report, .resolving methods (locale :: rest)⟩
        (s.withCache s.cache.hit) ⟨job, report, .binding methods locale rest stored.resolution⟩ []
  | miss {s job report methods locale rest}
      (hget : s.cache.get? { interface := job.interface, locale } = none) :
      Moves p oracle emitter s ⟨job, report, .resolving methods (locale :: rest)⟩
        (s.withCache s.cache.miss) ⟨job, report, .computing methods locale rest⟩ []
  | store {s job report methods locale rest} :
      Moves p oracle emitter s ⟨job, report, .computing methods locale rest⟩
        (s.withCache
          (s.cache.store { interface := job.interface, locale } (job.catalog.resolve locale)).2)
        ⟨job, report, .binding methods locale rest (job.catalog.resolve locale)⟩ []
  | fail {s job report methods locale rest resolution error}
      (hbind : bindMethods p.config job methods locale resolution = .error error) :
      Moves p oracle emitter s ⟨job, report, .binding methods locale rest resolution⟩
        s ⟨job, { report with error? := some error }, .finished⟩ []
  | reuse {s job report methods locale rest resolution artifact}
      (hbind : bindMethods p.config job methods locale resolution = .ok artifact)
      (hreuse : p.config.reuseEquivalentArtifacts)
      (hmark : (job.interface, artifact.className) ∈ s.classes) :
      Moves p oracle emitter s ⟨job, report, .binding methods locale rest resolution⟩
        s ⟨job, { report with reused := report.reused ++ [(locale, artifact.className)] },
          .resolving methods rest⟩ []
  | mark {s job report methods locale rest resolution artifact}
      (hbind : bindMethods p.config job methods locale resolution = .ok artifact)
      (hmark : p.config.reuseEquivalentArtifacts →
        (job.interface, artifact.className) ∉ s.classes) :
      Moves p oracle emitter s ⟨job, report, .binding methods locale rest resolution⟩
        (s.mark p.config job.interface artifact.className)
        ⟨job, report, .emitting methods artifact rest⟩ []
  | deliver {s job report methods artifact rest kept}
      (hemit : emitter.emit s.emitter artifact = (.ok (), kept)) :
      Moves p oracle emitter s ⟨job, report, .emitting methods artifact rest⟩ (s.withEmitter kept)
        ⟨job, { report with emitted := report.emitted ++ [artifact.className] },
          .resolving methods rest⟩ [⟨artifact, .ok ()⟩]
  | reject {s job report methods artifact rest kept error}
      (hemit : emitter.emit s.emitter artifact = (.error error, kept)) :
      Moves p oracle emitter s ⟨job, report, .emitting methods artifact rest⟩ (s.withEmitter kept)
        ⟨job, { report with error? := some error }, .finished⟩ [⟨artifact, .error error⟩]

/-- A run in the hands of its workers: the tasks in the order of the jobs, what the interfaces
share, and what the emitter was given so far. -/
structure Crew (σ : Type) where
  tasks : List Task
  shared : Shared σ
  deliveries : List Delivery := []

namespace Crew

/-- A run before its first step. -/
def start (p : Pass) (jobs : List Job) (kept : σ) : Crew σ where
  tasks := jobs.map Task.ofJob
  shared := { cache := p.cache, emitter := kept }

/-- One of the workers takes a step. It takes a new task, any of those that wait, only if it has
none in hand, and it has to wait for a resolution that another one is computing. -/
inductive Step (p : Pass) (oracle : Oracle) (emitter : Emitter σ) : Crew σ → Crew σ → Prop where
  | move {s s' : Shared σ} {t t' : Task} {deliveries sent : List Delivery}
      (before after : List Task) (hmove : Moves p oracle emitter s t s' t' sent)
      (hfree : t.isWaiting → (before ++ after).countP Task.isInHand < p.config.workers)
      (hlock : ∀ key, t.wanted? = some key →
        ∀ other ∈ before ++ after, other.computed? ≠ some key) :
      Step p oracle emitter ⟨before ++ t :: after, s, deliveries⟩
        ⟨before ++ t' :: after, s', deliveries ++ sent⟩

/-- The states that the workers can bring a run to, in any order of their steps. -/
inductive Reachable (p : Pass) (jobs : List Job) (oracle : Oracle) (emitter : Emitter σ)
    (kept : σ) : Crew σ → Prop where
  | start : Reachable p jobs oracle emitter kept (start p jobs kept)
  | step {c c' : Crew σ} (h : Reachable p jobs oracle emitter kept c)
      (hstep : Step p oracle emitter c c') : Reachable p jobs oracle emitter kept c'

def isFinished (c : Crew σ) : Bool :=
  c.tasks.all Task.isFinished

/-- What the run tells when it is finished. -/
def report (c : Crew σ) : Report where
  jobs := c.tasks.map (·.report)
  cache := c.shared.cache.stats

end Crew

end Localization.Generation

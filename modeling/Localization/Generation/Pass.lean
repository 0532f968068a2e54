import Localization.Cache
import Localization.Generation.Emitter
import Localization.Generation.Job

namespace Localization.Generation

/-- Tells the methods of an interface. -/
abbrev Oracle := Interface → Except Error (List Method)

/-- Knows the methods of some interfaces; of two entries for one interface the later counts. -/
def Oracle.ofList (declared : List (Interface × List Method)) : Oracle := fun interface =>
  match declared.reverse.lookup interface with
  | some methods => .ok methods
  | none => .error (.unknownMethods interface "interface is not declared")

structure JobReport where
  interface : Interface
  /-- The classes that were emitted, in the order of the locales. -/
  emitted : List String := []
  /-- The locales that an earlier artifact serves, with its class. -/
  reused : List (Locale × String) := []
  error? : Option Error := none
deriving DecidableEq

def JobReport.isSuccess (r : JobReport) : Bool :=
  r.error?.isNone

structure Report where
  jobs : List JobReport
  cache : Cache.Stats
deriving DecidableEq

namespace Report

def isSuccess (r : Report) : Bool :=
  r.jobs.all (·.isSuccess)

def failures (r : Report) : List JobReport :=
  r.jobs.filter (!·.isSuccess)

def emittedCount (r : Report) : Nat :=
  (r.jobs.flatMap (·.emitted)).length

end Report

/-- Binds interfaces to resources. A pass keeps what it resolved for as long as it lasts. -/
structure Pass where
  config : Config
  locales : List Locale
  cache : Cache := {}

namespace Pass

/-- A pass with an empty cache, if the configuration is valid. -/
def start (config : Config) : Except Error Pass :=
  if config.faults ≠ [] then .error (.invalidConfig config.faults)
  else do
    let locales ← config.parsedLocales.mapError .resource
    return { config, locales }

end Pass

/-- What a method is bound to when no resource has its key. -/
def unresolved (config : Config) (method : Method) (missing : MissingKey) :
    Except Error BoundValue :=
  match method.default? with
  | some value => .ok (.declared value)
  | none =>
    if method.optional || !config.failOnMissing then .ok .absent else .error (.missingKey missing)

/-- Binds a method to the resources of a locale. -/
def bindMethod (config : Config) (job : Job) (r : Resolution) (method : Method) :
    Except Error BoundValue :=
  if method.plural then
    if job.kind = .constants then .error (.pluralConstant job.interface method.name)
    else
      match r.formTable config.selectorFallback method.key with
      | .ok table => .ok (.selectable table)
      | .error missing => unresolved config method missing
  else
    match r.lookup config.selectorFallback method.key none with
    | .ok binding => .ok (.resolved binding)
    | .error missing => unresolved config method missing

/-- Binds the methods in their order; the first that cannot be bound is the error. -/
def bindMethods (config : Config) (job : Job) (methods : List Method) (requested : Locale)
    (r : Resolution) : Except Error Artifact := do
  let bound ← methods.mapM fun method => do
    return {
      method := method.name
      key := method.key
      value := ← bindMethod config job r method : BoundMethod }
  return {
    interface := job.interface
    kind := job.kind
    requested
    effective := r.effective
    className := className job.interface r.effective
    methods := bound }

/-- Binds the methods for a locale, which the cache resolves. -/
def bindAt (config : Config) (cache : Cache) (job : Job) (methods : List Method) (locale : Locale) :
    Except Error Artifact × Cache :=
  let (stored, cache) := cache.resolve job.catalog locale
  (bindMethods config job methods locale stored.resolution, cache)

/-- What the interfaces of a run share: the cache, the classes that were handed to the emitter, and
what the emitter keeps. -/
structure Shared (σ : Type) where
  cache : Cache
  classes : List (Interface × String) := []
  emitter : σ

variable {σ : Type}

/-- Binds and emits the locales one after the other, until one fails. An artifact whose class was
handed to the emitter before is reused if the configuration says so. -/
def runLocales (config : Config) (emitter : Emitter σ) (job : Job) (methods : List Method) :
    List Locale → Shared σ → JobReport × Shared σ
  | [], s => ({ interface := job.interface }, s)
  | locale :: rest, s =>
    match bindAt config s.cache job methods locale with
    | (.error error, cache) =>
      ({ interface := job.interface, error? := some error }, { s with cache })
    | (.ok artifact, cache) =>
      let mark := (job.interface, artifact.className)
      if config.reuseEquivalentArtifacts ∧ mark ∈ s.classes then
        let (report, s) := runLocales config emitter job methods rest { s with cache }
        ({ report with reused := (locale, artifact.className) :: report.reused }, s)
      else
        let classes := if config.reuseEquivalentArtifacts then mark :: s.classes else s.classes
        match emitter.emit s.emitter artifact with
        | (.error error, kept) =>
          ({ interface := job.interface, error? := some error },
            { cache, classes, emitter := kept })
        | (.ok (), kept) =>
          let (report, s) :=
            runLocales config emitter job methods rest { cache, classes, emitter := kept }
          ({ report with emitted := artifact.className :: report.emitted }, s)

def runJob (config : Config) (locales : List Locale) (oracle : Oracle) (emitter : Emitter σ)
    (s : Shared σ) (job : Job) : JobReport × Shared σ :=
  match oracle job.interface with
  | .error error => ({ interface := job.interface, error? := some error }, s)
  | .ok methods => runLocales config emitter job methods locales s

/-- Runs the interfaces one after the other. -/
def runJobs (config : Config) (locales : List Locale) (oracle : Oracle) (emitter : Emitter σ) :
    List Job → Shared σ → List JobReport × Shared σ
  | [], s => ([], s)
  | job :: rest, s =>
    let (report, s) := runJob config locales oracle emitter s job
    let (reports, s) := runJobs config locales oracle emitter rest s
    (report :: reports, s)

namespace Pass

/-- Binds one interface for a locale. -/
def bind (p : Pass) (job : Job) (oracle : Oracle) (locale : Locale) :
    Except Error Artifact × Pass :=
  match oracle job.interface with
  | .error error => (.error error, p)
  | .ok methods =>
    let (result, cache) := bindAt p.config p.cache job methods locale
    (result, { p with cache })

/-- Binds every interface for every configured locale and emits the artifacts. An interface that
fails does not keep the others from running. -/
def run (p : Pass) (jobs : List Job) (oracle : Oracle) (emitter : Emitter σ) (kept : σ) :
    Report × σ × Pass :=
  let (reports, s) :=
    runJobs p.config p.locales oracle emitter jobs { cache := p.cache, emitter := kept }
  ({ jobs := reports, cache := s.cache.stats }, s.emitter, { p with cache := s.cache })

/-- The counters of the cache when the pass ends. -/
def finish (p : Pass) : Cache.Stats :=
  p.cache.stats

end Pass

end Localization.Generation

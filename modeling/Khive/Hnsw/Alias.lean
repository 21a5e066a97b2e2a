import Khive.Foundation.SortedMap

/-!
# Aliases of indexes

The manager maps collection names to indexes and alias names to collection names, each map behind
a lock. An operation is a sequence of sections that hold the locks they need; between them other
operations run, and validation and building hold no lock. A world is the manager with the
operations in flight, and an action is one section of one of them.
-/

namespace Khive

namespace IndexAlias

/-- An allocated index, as `Arc::ptr_eq` tells it apart. Its readers are counted under it. -/
abbrev IndexRef := ℕ

inductive AliasError where
  | aliasNotFound (name : String)
  | collectionNotFound (name : String)
  | collectionAlreadyExists (name : String)
  | collectionInUse (name : String)
  | aliasAlreadyExists (name : String)
  | aliasTargetChanged (aliasName expected actual : String)
  /-- The two recalls as bits. -/
  | validationFailed (reason : String) (recallBits minRecall : Option UInt32)
  | indexError (message : String)
  deriving DecidableEq

structure IndexAliasManager where
  collections : OrderedMap String IndexRef
  aliases : OrderedMap String String

namespace IndexAliasManager

def empty : IndexAliasManager := ⟨OrderedMap.empty, OrderedMap.empty⟩

/-- The index an alias leads to. -/
def target (m : IndexAliasManager) (aliasName : String) : Option IndexRef :=
  (m.aliases.get aliasName).bind m.collections.get

/-- `aliases.values().any(|target| target == collection)`. -/
def isTarget (m : IndexAliasManager) (collection : String) : Bool :=
  m.aliases.values.any fun target ↦ target == collection

/-- `register_collection_and_pin`. -/
def registerCollectionAndPin (m : IndexAliasManager) (name : String) (index : IndexRef) :
    Except AliasError IndexAliasManager :=
  if (m.collections.get name).isSome then .error (.collectionAlreadyExists name)
  else .ok { m with collections := m.collections.insert name index }

/-- `create_alias`. -/
def createAlias (m : IndexAliasManager) (aliasName collection : String) :
    Except AliasError IndexAliasManager :=
  if (m.collections.get collection).isNone then .error (.collectionNotFound collection)
  else if (m.aliases.get aliasName).isSome then .error (.aliasAlreadyExists aliasName)
  else .ok { m with aliases := m.aliases.insert aliasName collection }

/-- `acquire_reader`: the index whose readers are counted up. -/
def acquireReader (m : IndexAliasManager) (aliasName : String) : Except AliasError IndexRef :=
  match m.aliases.get aliasName with
  | none => .error (.aliasNotFound aliasName)
  | some collection =>
    match m.collections.get collection with
    | none => .error (.collectionNotFound collection)
    | some index => .ok index

/-- The first section of `switch_alias`, which is there with a validator only. -/
def validateTarget (m : IndexAliasManager) (newCollection : String)
    (validate : IndexRef → Except AliasError Unit) : Except AliasError IndexRef :=
  match m.collections.get newCollection with
  | none => .error (.collectionNotFound newCollection)
  | some index => (validate index).map fun _ ↦ index

/-- The last section of `switch_alias`. Answers with the collection before. -/
def switchAlias (m : IndexAliasManager) (aliasName newCollection : String)
    (validated : Option IndexRef) : Except AliasError (String × IndexAliasManager) :=
  match m.collections.get newCollection with
  | none => .error (.collectionNotFound newCollection)
  | some index =>
    if validated.any fun v ↦ v ≠ index then .error (.collectionNotFound newCollection)
    else
      match m.aliases.get aliasName with
      | none => .error (.aliasNotFound aliasName)
      | some oldCollection =>
        .ok (oldCollection, { m with aliases := m.aliases.insert aliasName newCollection })

/-- The checks of `publish_migration_if_current`. -/
def checkCurrent (m : IndexAliasManager) (aliasName expectedCollection : String)
    (expectedOldIndex : IndexRef) (newCollection : String) (expectedNewIndex : IndexRef) :
    Except AliasError Unit :=
  match m.collections.get newCollection with
  | none => .error (.collectionNotFound newCollection)
  | some candidate =>
    if expectedNewIndex ≠ candidate then .error (.collectionNotFound newCollection)
    else
      match m.aliases.get aliasName with
      | none => .error (.aliasNotFound aliasName)
      | some actualCollection =>
        if actualCollection ≠ expectedCollection then
          .error (.aliasTargetChanged aliasName expectedCollection actualCollection)
        else
          match m.collections.get expectedCollection with
          | none => .error (.collectionNotFound expectedCollection)
          | some oldIndex =>
            if expectedOldIndex ≠ oldIndex then .error (.collectionNotFound expectedCollection)
            else .ok ()

/-- What `publish_migration_if_current` does behind its checks. Answers with the source when it is
retired. -/
def publish (m : IndexAliasManager) (aliasName expectedCollection newCollection : String) :
    Option IndexRef × IndexAliasManager :=
  let switched := { m with aliases := m.aliases.insert aliasName newCollection }
  if switched.isTarget expectedCollection then (none, switched)
  else
    (switched.collections.get expectedCollection,
      { switched with collections := switched.collections.erase expectedCollection })

/-- `publish_migration_if_current`. -/
def publishMigrationIfCurrent (m : IndexAliasManager) (aliasName expectedCollection : String)
    (expectedOldIndex : IndexRef) (newCollection : String) (expectedNewIndex : IndexRef) :
    Except AliasError (Option IndexRef × IndexAliasManager) :=
  (m.checkCurrent aliasName expectedCollection expectedOldIndex newCollection
    expectedNewIndex).map fun _ ↦ m.publish aliasName expectedCollection newCollection

/-- `retire_collection`. -/
def retireCollection (m : IndexAliasManager) (collection : String)
    (expectedIndex : Option IndexRef) : Except AliasError (IndexRef × IndexAliasManager) :=
  match m.collections.get collection with
  | none => .error (.collectionNotFound collection)
  | some registered =>
    if expectedIndex.any fun expected ↦ expected ≠ registered then
      .error (.collectionNotFound collection)
    else if m.isTarget collection then .error (.collectionInUse collection)
    else .ok (registered, { m with collections := m.collections.erase collection })

end IndexAliasManager

/-! ## Operations in flight -/

/-- The name of the candidate: `format!("{}_migrated_{}_{}", …)`. -/
def migratedName (oldCollection : String) (millis sequence : ℕ) : String :=
  oldCollection ++ "_migrated_" ++ millis.repr ++ "_" ++ sequence.repr

/-- What a migration captures before it builds. -/
structure Source where
  aliasName : String
  oldCollection : String
  oldIndex : IndexRef
  deriving DecidableEq

/-- What a migration has built. -/
structure Candidate extends Source where
  newCollection : String
  newIndex : IndexRef
  deriving DecidableEq

/-- How far `migrate` has come. Waiting for the readers of a retired source changes nothing more. -/
inductive Migration where
  | idle
  | resolved (aliasName oldCollection : String)
  | captured (s : Source)
  | named (s : Source) (newCollection : String)
  | exposed (c : Candidate)
  | validated (c : Candidate)
  /-- The candidate is to be cleaned up. -/
  | failed (c : Candidate) (e : AliasError)
  | published (c : Candidate) (retired : Option IndexRef)
  | returned (e : AliasError)
  deriving DecidableEq

/-- The source that is captured. -/
def Migration.source? : Migration → Option Source
  | .captured s | .named s _ => some s
  | .exposed c | .validated c | .failed c _ | .published c _ => some c.toSource
  | _ => none

/-- The candidate that is built. -/
def Migration.candidate? : Migration → Option Candidate
  | .exposed c | .validated c | .failed c _ | .published c _ => some c
  | _ => none

/-- The candidate that the validator accepted. -/
def Migration.accepted? : Migration → Option Candidate
  | .validated c | .published c _ => some c
  | _ => none

/-- How far `switch_alias` has come. -/
inductive Switch where
  | idle
  | ready (aliasName newCollection : String) (validated : Option IndexRef)
  | done (result : Except AliasError String)

structure World where
  manager : IndexAliasManager
  /-- Active readers of each index. -/
  readers : IndexRef → ℕ
  nextIndex : IndexRef
  migrations : ℕ → Migration
  switches : ℕ → Switch

def World.start : World where
  manager := IndexAliasManager.empty
  readers _ := 0
  nextIndex := 0
  migrations _ := .idle
  switches _ := .idle

/-- One section of one operation. Migrations and switches have numbers. What happens without a lock
comes with the section behind it: the answer of the validator, whether the build fails, the clock,
and the number drawn from `MIGRATION_NAME_SEQUENCE`, which all managers of the process share. -/
inductive Action where
  | registerCollection (name : String)
  | createAlias (aliasName collection : String)
  | acquireReader (aliasName : String)
  | dropReader (index : IndexRef)
  | drainAndRemove (collection : String)
  | startSwitch (k : ℕ) (aliasName newCollection : String)
      (validator : Option (IndexRef → Except AliasError Unit))
  | publishSwitch (k : ℕ)
  | resolveAlias (k : ℕ) (aliasName : String)
  | captureIndex (k : ℕ)
  | nameCandidate (k millis sequence : ℕ)
  | exposeCandidate (k : ℕ) (built : Except AliasError Unit)
  | validateCandidate (k : ℕ) (validator : Option (IndexRef → Except AliasError Unit))
  | publishCandidate (k : ℕ)
  | cleanUp (k : ℕ)

/-- The migration that the section is one of. -/
def Action.migration? : Action → Option ℕ
  | .resolveAlias k _ | .captureIndex k | .nameCandidate k _ _ | .exposeCandidate k _
  | .validateCandidate k _ | .publishCandidate k | .cleanUp k => some k
  | _ => none

namespace World

variable (w : World)

def setMigration (k : ℕ) (migration : Migration) : World :=
  { w with migrations := Function.update w.migrations k migration }

def setSwitch (k : ℕ) (s : Switch) : World :=
  { w with switches := Function.update w.switches k s }

/-- The index is allocated in either case. -/
def registerCollection (name : String) : World :=
  match w.manager.registerCollectionAndPin name w.nextIndex with
  | .error _ => { w with nextIndex := w.nextIndex + 1 }
  | .ok manager => { w with manager, nextIndex := w.nextIndex + 1 }

def createAlias (aliasName collection : String) : World :=
  match w.manager.createAlias aliasName collection with
  | .error _ => w
  | .ok manager => { w with manager }

def acquireReader (aliasName : String) : World :=
  match w.manager.acquireReader aliasName with
  | .error _ => w
  | .ok index => { w with readers := Function.update w.readers index (w.readers index + 1) }

def dropReader (index : IndexRef) : World :=
  { w with readers := Function.update w.readers index (w.readers index - 1) }

/-- `drain_and_remove`; waiting for the readers holds no lock. -/
def drainAndRemove (collection : String) : World :=
  match w.manager.retireCollection collection none with
  | .error _ => w
  | .ok (_, manager) => { w with manager }

def startSwitch (k : ℕ) (aliasName newCollection : String)
    (validator : Option (IndexRef → Except AliasError Unit)) : World :=
  match w.switches k with
  | .idle =>
    match validator with
    | none => w.setSwitch k (.ready aliasName newCollection none)
    | some validate =>
      match w.manager.validateTarget newCollection validate with
      | .error e => w.setSwitch k (.done (.error e))
      | .ok index => w.setSwitch k (.ready aliasName newCollection (some index))
  | _ => w

def publishSwitch (k : ℕ) : World :=
  match w.switches k with
  | .ready aliasName newCollection validated =>
    match w.manager.switchAlias aliasName newCollection validated with
    | .error e => w.setSwitch k (.done (.error e))
    | .ok (oldCollection, manager) => { w with manager }.setSwitch k (.done (.ok oldCollection))
  | _ => w

def resolveAlias (k : ℕ) (aliasName : String) : World :=
  match w.migrations k with
  | .idle =>
    match w.manager.aliases.get aliasName with
    | none => w.setMigration k (.returned (.aliasNotFound aliasName))
    | some oldCollection => w.setMigration k (.resolved aliasName oldCollection)
  | _ => w

def captureIndex (k : ℕ) : World :=
  match w.migrations k with
  | .resolved aliasName oldCollection =>
    match w.manager.collections.get oldCollection with
    | none => w.setMigration k (.returned (.collectionNotFound oldCollection))
    | some oldIndex => w.setMigration k (.captured ⟨aliasName, oldCollection, oldIndex⟩)
  | _ => w

def nameCandidate (k millis sequence : ℕ) : World :=
  match w.migrations k with
  | .captured s =>
    w.setMigration k (.named s (migratedName s.oldCollection millis sequence))
  | _ => w

def exposeCandidate (k : ℕ) (built : Except AliasError Unit) : World :=
  match w.migrations k with
  | .named s newCollection =>
    match built with
    | .error e => w.setMigration k (.returned e)
    | .ok _ =>
      match w.manager.registerCollectionAndPin newCollection w.nextIndex with
      | .error e => { w with nextIndex := w.nextIndex + 1 }.setMigration k (.returned e)
      | .ok manager => { w with manager, nextIndex := w.nextIndex + 1 }.setMigration k
          (.exposed ⟨s, newCollection, w.nextIndex⟩)
  | _ => w

/-- The error that `migrate` answers with when the validator does. -/
def validationError : AliasError → AliasError
  | .validationFailed _ recallBits minRecall =>
    .validationFailed "recall below threshold" recallBits minRecall
  | e => e

def validateCandidate (k : ℕ) (validator : Option (IndexRef → Except AliasError Unit)) : World :=
  match w.migrations k with
  | .exposed c =>
    match validator with
    | none => w.setMigration k (.validated c)
    | some validate =>
      match validate c.newIndex with
      | .error e => w.setMigration k (.failed c (validationError e))
      | .ok _ => w.setMigration k (.validated c)
  | _ => w

def publishCandidate (k : ℕ) : World :=
  match w.migrations k with
  | .validated c =>
    match w.manager.publishMigrationIfCurrent c.aliasName c.oldCollection c.oldIndex
        c.newCollection c.newIndex with
    | .error e => w.setMigration k (.failed c e)
    | .ok (retired, manager) => { w with manager }.setMigration k (.published c retired)
  | _ => w

/-- The candidate is retired, or an error that says why not is dropped. -/
def cleanUp (k : ℕ) : World :=
  match w.migrations k with
  | .failed c e =>
    match w.manager.retireCollection c.newCollection (some c.newIndex) with
    | .error _ => w.setMigration k (.returned e)
    | .ok (_, manager) => { w with manager }.setMigration k (.returned e)
  | _ => w

/-- One action. A section whose operation has not come so far does nothing. -/
def step : Action → World
  | .registerCollection name => w.registerCollection name
  | .createAlias aliasName collection => w.createAlias aliasName collection
  | .acquireReader aliasName => w.acquireReader aliasName
  | .dropReader index => w.dropReader index
  | .drainAndRemove collection => w.drainAndRemove collection
  | .startSwitch k aliasName newCollection validator =>
    w.startSwitch k aliasName newCollection validator
  | .publishSwitch k => w.publishSwitch k
  | .resolveAlias k aliasName => w.resolveAlias k aliasName
  | .captureIndex k => w.captureIndex k
  | .nameCandidate k millis sequence => w.nameCandidate k millis sequence
  | .exposeCandidate k built => w.exposeCandidate k built
  | .validateCandidate k validator => w.validateCandidate k validator
  | .publishCandidate k => w.publishCandidate k
  | .cleanUp k => w.cleanUp k

end World

end IndexAlias

end Khive

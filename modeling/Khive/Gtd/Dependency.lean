import Khive.Foundation.Bytes
import Khive.Foundation.Cycles
import Khive.Foundation.Table
import Khive.Foundation.Worklist
import Khive.Types.Edge
import Khive.Types.Value

/-!
# Dependencies of tasks

A task names the tasks it waits for in its property `depends_on`. An update of the list is accepted
when each of its entries is a task of the same namespace from which the updated task cannot be
reached, which a breadth-first search over the stored lists decides. The search loads the notes of a
whole frontier at once and is cut off at a number of tasks and of edges. It gives what the search
gives that loads every note when its turn comes, and the graph of a namespace stays without cycles.
-/

namespace Khive

namespace Gtd

open Relation

/-- `DEPENDENCY_WALK_MAX_NODES`. -/
def dependencyWalkMaxNodes : ℕ := 20000

/-- A note, as far as dependencies go. -/
structure Note where
  id : Id128
  kind : String
  «namespace» : String
  properties : Option JsonValue

/-- The live notes. -/
abbrev NoteStore := Table Note Id128 Note.id

/-- `NoteStore::get_notes_batch`. -/
def getNotesBatch (store : NoteStore) (ids : List Id128) : List Note := ids.filterMap store.get

structure Libraries where
  /-- `Uuid::parse_str`. -/
  parseUuid : String → Option Id128
  /-- `mask_for_redaction_surface`, for a gate probe. -/
  maskForGateProbe : String → String
  /-- The characters that `Debug` escapes. -/
  unprintable : Char → Bool

/-! ## Refusals -/

/-- What an update of dependencies is refused for. -/
inductive DependencyError
  | notArray
  | edgeBound
  | taskBound
  | notText
  | notUuid (raw : String)
  | notCanonical (raw : String) (id : Id128)
  | selfDependency (task : Id128)
  | missing (id : Id128)
  | notTask (id : Id128) (kind : String)
  | otherNamespace (id : Id128) (taskNamespace : String)
  | cycle (id task : Id128)
  deriving DecidableEq

inductive RuntimeError
  | invalidInput (message : String)
  | notFound (message : String)
  deriving DecidableEq

/-- The error that is reported. -/
def DependencyError.runtimeError (lib : Libraries) : DependencyError → RuntimeError
  | notArray => .invalidInput "task properties.depends_on must be an array of UUIDs"
  | edgeBound => .invalidInput ("depends_on cycle validation exceeded the " ++
      toString dependencyWalkMaxNodes ++ "-edge safety bound")
  | taskBound => .invalidInput ("depends_on cycle validation exceeded the " ++
      toString dependencyWalkMaxNodes ++ "-task safety bound")
  | notText => .invalidInput "task properties.depends_on entries must be full UUID strings"
  | notUuid raw => .invalidInput ("task properties.depends_on entry " ++
      quoted (lib.maskForGateProbe raw) ++ " must be a full UUID")
  | notCanonical raw id => .invalidInput ("task properties.depends_on entry " ++ quoted raw ++
      " must use the canonical lowercase hyphenated UUID " ++ quoted (uuidText id))
  | selfDependency task => .invalidInput ("depends_on update would create a dependency cycle: task "
      ++ uuidText task ++ " cannot depend on itself")
  | missing id => .notFound ("depends_on target " ++ uuidText id ++ " is missing or deleted")
  | notTask id kind => .invalidInput ("depends_on target " ++ uuidText id ++
      " must be a task note; got " ++ quoted kind)
  | otherNamespace id taskNamespace => .invalidInput ("depends_on target " ++ uuidText id ++
      " must share task namespace " ++ quoted taskNamespace)
  | cycle id task => .invalidInput ("depends_on update would create a dependency cycle: blocker " ++
      uuidText id ++ " already reaches task " ++ uuidText task)
where
  quoted (text : String) : String := debugText lib.unprintable text.toList

/-! ## Searching -/

/-- The member `depends_on` of properties. -/
def dependsOn (properties : Option JsonValue) : Option JsonValue :=
  properties.bind fun value ↦ value.get "depends_on"

def Note.dependencies (note : Note) : Option (List JsonValue) :=
  (dependsOn note.properties).bind JsonValue.asArray

section Search

variable (lib : Libraries) (store : NoteStore)

/-- The identifiers among the entries. -/
def targets (dependencies : List JsonValue) : List Id128 :=
  dependencies.filterMap fun dependency ↦ dependency.asStr.bind lib.parseUuid

/-- What visiting a task comes to, which is the `n`-th. -/
def expandTask (find : Id128 → Option Note) (taskNamespace : String) :
    Worklist.Expand Id128 ℕ DependencyError := fun n traversedEdges current ↦
  if dependencyWalkMaxNodes < n then some (.error .taskBound)
  else match find current with
  | none => some (.ok (traversedEdges, []))
  | some note =>
    if note.kind ≠ "task" ∨ note.namespace ≠ taskNamespace then some (.ok (traversedEdges, []))
    else match note.dependencies with
    | none => some (.ok (traversedEdges, []))
    | some dependencies =>
      if dependencyWalkMaxNodes < traversedEdges + dependencies.length then some (.error .edgeBound)
      else some (.ok (traversedEdges + dependencies.length, targets lib dependencies))

/-- The notes of a frontier that are loaded: those before the goal which have not been visited, each
once, and only as many as may still be visited. -/
def prefetchIds (goal : Id128) (visited : Finset Id128) :
    List Id128 → ℕ → Finset Id128 → List Id128
  | [], _, _ => []
  | _, 0, _ => []
  | id :: rest, n + 1, frontierIds =>
    if id = goal then []
    else if id ∉ visited ∧ id ∉ frontierIds then
      id :: prefetchIds goal visited rest n (insert id frontierIds)
    else prefetchIds goal visited rest (n + 1) frontierIds

/-- One round of the search: the whole queue. -/
def walkFrontier (taskNamespace : String) (goal : Id128) (w : Worklist Id128 ℕ) :
    Option (Pass (Worklist Id128 ℕ) (Except DependencyError Bool)) :=
  if w.queue = [] then some (.leave (.ok false))
  else if w.queue.head? = some goal then some (.leave (.ok true))
  else
    let ids := prefetchIds goal w.visited w.queue (dependencyWalkMaxNodes - w.visited.card) ∅
    let notes := getNotesBatch store ids
    Worklist.visitAll (expandTask lib (fun id ↦ notes.find? fun note ↦ note.id = id) taskNamespace)
      goal w.queue { w with queue := [] }

def propertyPathReaches (start goal : Id128) (taskNamespace : String) :
    Option (Except DependencyError Bool) :=
  loop (walkFrontier lib store taskNamespace goal) (dependencyWalkMaxNodes + 2) ⟨[start], ∅, 0⟩

/-- The search that loads every note when its turn comes. -/
def propertyPathReachesOneByOne (start goal : Id128) (taskNamespace : String) :
    Option (Except DependencyError Bool) :=
  loop (Worklist.next (expandTask lib store.get taskNamespace) goal) (dependencyWalkMaxNodes + 2)
    ⟨[start], ∅, 0⟩

/-! ## Checking an update -/

/-- One entry of the new list. -/
def validateDependency (task : Note) (dependency : JsonValue) :
    Option (Except DependencyError Unit) :=
  match dependency.asStr with
  | none => some (.error .notText)
  | some raw =>
    match lib.parseUuid raw with
    | none => some (.error (.notUuid raw))
    | some dependencyId =>
      if raw ≠ uuidText dependencyId then some (.error (.notCanonical raw dependencyId))
      else if dependencyId = task.id then some (.error (.selfDependency task.id))
      else match (getNotesBatch store [dependencyId]).head? with
      | none => some (.error (.missing dependencyId))
      | some blocker =>
        if blocker.kind ≠ "task" then some (.error (.notTask dependencyId blocker.kind))
        else if blocker.namespace ≠ task.namespace then
          some (.error (.otherNamespace dependencyId task.namespace))
        else (propertyPathReaches lib store dependencyId task.id task.namespace).map fun
          | .error e => .error e
          | .ok true => .error (.cycle dependencyId task.id)
          | .ok false => .ok ()

/-- The entries in order, up to the first that is refused. -/
def validateDependencies (task : Note) : List JsonValue → Option (Except DependencyError Unit)
  | [] => some (.ok ())
  | dependency :: rest => (validateDependency lib store task dependency).bind fun
    | .error e => some (.error e)
    | .ok () => validateDependencies task rest

def validatePropertyUpdate (task : Note) (properties : Option JsonValue) :
    Option (Except DependencyError Unit) :=
  match dependsOn properties with
  | none => some (.ok ())
  | some value =>
    match value.asArray with
    | none => some (.error .notArray)
    | some dependencies =>
      if dependencyWalkMaxNodes < dependencies.length then some (.error .edgeBound)
      else validateDependencies lib store task dependencies

end Search

/-! ## The graph -/

section Graph

variable {lib : Libraries} {store store' : NoteStore} {taskNamespace : String} {u v : Id128}

/-- A live task of the namespace. -/
def IsTask (store : NoteStore) (taskNamespace : String) (u : Id128) : Prop :=
  ∃ note, store.get u = some note ∧ note.kind = "task" ∧ note.namespace = taskNamespace

/-- The list of the task `u` names `v`. -/
def Names (lib : Libraries) (find : Id128 → Option Note) (taskNamespace : String) (u v : Id128) :
    Prop :=
  ∃ note dependencies, find u = some note ∧ note.kind = "task" ∧ note.namespace = taskNamespace ∧
    note.dependencies = some dependencies ∧ v ∈ targets lib dependencies

/-- The graph of the dependencies between live tasks of a namespace. -/
def DependsOn (lib : Libraries) (store : NoteStore) (taskNamespace : String) (u v : Id128) : Prop :=
  Names lib store.get taskNamespace u v ∧ IsTask store taskNamespace v

def Acyclic (lib : Libraries) (store : NoteStore) (taskNamespace : String) : Prop :=
  ∀ u, ¬TransGen (DependsOn lib store taskNamespace) u u

theorem Names.isTask (h : Names lib store.get taskNamespace u v) :
    IsTask store taskNamespace u := by
  obtain ⟨note, -, hnote, hkind, hnamespace, -⟩ := h
  exact ⟨note, hnote, hkind, hnamespace⟩

/-- On a cycle every task that is named is live. -/
theorem acyclic_iff :
    Acyclic lib store taskNamespace ↔ ∀ u, ¬TransGen (Names lib store.get taskNamespace) u u := by
  have hle : DependsOn lib store taskNamespace ≤ Names lib store.get taskNamespace :=
    fun _ _ h ↦ h.1
  refine forall_congr' fun u ↦ not_congr ⟨TransGen.mono hle u u, fun hcycle ↦ ?_⟩
  have hlive : ∀ {v}, TransGen (Names lib store.get taskNamespace) u v →
      IsTask store taskNamespace v → TransGen (DependsOn lib store taskNamespace) u v := by
    intro v hwalk
    induction hwalk with
    | single hstep => exact fun hv ↦ TransGen.single ⟨hstep, hv⟩
    | tail _ hstep ih => exact fun hv ↦ (ih hstep.isTask).tail ⟨hstep, hv⟩
  obtain ⟨v, hstep, -⟩ := TransGen.head'_iff.mp hcycle
  exact hlive hcycle hstep.isTask

/-! ## The search -/

theorem explores_expandTask (lib : Libraries) (find : Id128 → Option Note)
    (taskNamespace : String) :
    Worklist.Explores (expandTask lib find taskNamespace) (Names lib find taskNamespace)
      fun traversedEdges ↦ dependencyWalkMaxNodes - traversedEdges := by
  intro n traversedEdges current
  -- a task without a list leads nowhere and costs nothing
  have hnone : (∀ v, ¬Names lib find taskNamespace current v) →
      Returns (some (.ok (traversedEdges, [])) : Option (Except DependencyError (ℕ × List Id128)))
        fun result ↦ ∀ spent' targets, result = .ok (spent', targets) →
          dependencyWalkMaxNodes - spent' + targets.length ≤
            dependencyWalkMaxNodes - traversedEdges ∧
          ∀ v, v ∈ targets ↔ Names lib find taskNamespace current v := by
    intro hno
    refine returns_some.mpr fun spent' targets hresult ↦ ?_
    obtain ⟨rfl, rfl⟩ := Prod.mk.inj (Except.ok.inj hresult)
    exact ⟨le_rfl, fun v ↦ iff_of_false List.not_mem_nil (hno v)⟩
  rw [expandTask]
  split_ifs
  · exact returns_some.mpr fun _ _ hresult ↦ by cases hresult
  · rcases hfind : find current with - | note
    · refine hnone fun v hv ↦ ?_
      obtain ⟨note, -, hnote, -⟩ := hv
      cases hfind.symm.trans hnote
    · dsimp only
      split_ifs with hother
      · refine hnone fun v hv ↦ ?_
        obtain ⟨note', -, hnote, hkind, hnamespace, -⟩ := hv
        obtain rfl := Option.some.inj (hfind.symm.trans hnote)
        exact hother.elim (· hkind) (· hnamespace)
      · rw [not_or, not_not, not_not] at hother
        rcases hdeps : note.dependencies with - | dependencies
        · refine hnone fun v hv ↦ ?_
          obtain ⟨note', dependencies, hnote, -, -, hdeps', -⟩ := hv
          obtain rfl := Option.some.inj (hfind.symm.trans hnote)
          cases hdeps.symm.trans hdeps'
        · dsimp only
          split_ifs with hbound
          · exact returns_some.mpr fun _ _ hresult ↦ by cases hresult
          · refine returns_some.mpr fun spent' targets' hresult ↦ ?_
            obtain ⟨rfl, rfl⟩ := Prod.mk.inj (Except.ok.inj hresult)
            refine ⟨?_, fun v ↦
              ⟨fun hv ↦ ⟨note, dependencies, hfind, hother.1, hother.2, hdeps, hv⟩, ?_⟩⟩
            · have hlength : (targets lib dependencies).length ≤ dependencies.length :=
                List.length_filterMap_le _ _
              omega
            · rintro ⟨note', dependencies', hnote, -, -, hdeps', hv⟩
              obtain rfl := Option.some.inj (hfind.symm.trans hnote)
              obtain rfl := Option.some.inj (hdeps.symm.trans hdeps')
              exact hv

theorem find_getNotesBatch {ids : List Id128} {id : Id128} (h : id ∈ ids) :
    ((getNotesBatch store ids).find? fun note ↦ note.id = id) = store.get id := by
  have hid : ∀ note ∈ getNotesBatch store ids, store.get note.id = some note := by
    intro note hnote
    obtain ⟨id', -, hget⟩ := List.mem_filterMap.mp hnote
    rwa [Table.key_of_get hget]
  refine Option.ext fun note ↦ ⟨fun hfind ↦ ?_, fun hget ↦ ?_⟩
  · obtain rfl : note.id = id := by simpa using List.find?_some hfind
    exact hid note (List.mem_of_find?_eq_some hfind)
  · have hmem : note ∈ getNotesBatch store ids := List.mem_filterMap.mpr ⟨id, h, hget⟩
    rcases hfind : (getNotesBatch store ids).find? fun note ↦ note.id = id with - | note'
    · exact absurd (List.find?_eq_none.mp hfind note hmem) (by simp [Table.key_of_get hget])
    · obtain rfl : note'.id = id := by simpa using List.find?_some hfind
      exact hfind.trans ((hid note' (List.mem_of_find?_eq_some hfind)).symm.trans hget)

section Prefetch

variable {goal current : Id128} {visited frontierIds : Finset Id128} {rest : List Id128} {n : ℕ}

theorem prefetchIds_zero (frontier : List Id128) :
    prefetchIds goal visited frontier 0 frontierIds = [] := by
  rcases frontier with - | ⟨current, rest⟩
  · rfl
  · rfl

theorem prefetchIds_of_visited (hgoal : current ≠ goal)
    (hcurrent : current ∈ visited ∨ current ∈ frontierIds) :
    prefetchIds goal visited (current :: rest) n frontierIds =
      prefetchIds goal visited rest n frontierIds := by
  rcases n with - | n
  · rw [prefetchIds_zero, prefetchIds_zero]
  · rw [prefetchIds, if_neg hgoal, if_neg]
    rintro ⟨hvisited, hfrontier⟩
    exact hcurrent.elim hvisited hfrontier

theorem prefetchIds_of_not_visited (hgoal : current ≠ goal)
    (hcurrent : ¬(current ∈ visited ∨ current ∈ frontierIds)) :
    prefetchIds goal visited (current :: rest) (n + 1) frontierIds =
      current :: prefetchIds goal visited rest n (insert current frontierIds) := by
  rw [prefetchIds, if_neg hgoal, if_pos (not_or.mp hcurrent)]

/-- What is visited has been loaded. -/
theorem visitAll_prefetched {frontier : List Id128} {w : Worklist Id128 ℕ}
    {find : Id128 → Option Note}
    (hvisited : ∀ id, id ∈ w.visited ↔ id ∈ visited ∨ id ∈ frontierIds)
    (hfind : ∀ id ∈ prefetchIds goal visited frontier (dependencyWalkMaxNodes - w.visited.card)
      frontierIds, find id = store.get id) :
    Worklist.visitAll (expandTask lib find taskNamespace) goal frontier w =
      Worklist.visitAll (expandTask lib store.get taskNamespace) goal frontier w := by
  induction frontier generalizing w frontierIds with
  | nil => rfl
  | cons current rest ih =>
    rw [Worklist.visitAll, Worklist.visitAll, Worklist.visit, Worklist.visit]
    by_cases hgoal : current = goal
    · rw [if_pos hgoal, if_pos hgoal]
      rfl
    · rw [if_neg hgoal, if_neg hgoal]
      by_cases hcurrent : current ∈ w.visited
      · -- a visited task is passed over by the loading as well
        rw [if_pos hcurrent, if_pos hcurrent]
        rw [prefetchIds_of_visited hgoal ((hvisited _).mp hcurrent)] at hfind
        exact ih hvisited hfind
      · rw [if_neg hcurrent, if_neg hcurrent]
        rcases Nat.lt_or_ge w.visited.card dependencyWalkMaxNodes with hlt | hge
        · -- the note has been loaded, and one task less may be visited
          obtain ⟨n, hn⟩ := Nat.exists_eq_add_of_lt hlt
          have hleft : dependencyWalkMaxNodes - w.visited.card = n + 1 := by omega
          rw [hleft, prefetchIds_of_not_visited hgoal (mt (hvisited _).mpr hcurrent),
            List.forall_mem_cons] at hfind
          have hexpand : ∀ n t, expandTask lib find taskNamespace n t current =
              expandTask lib store.get taskNamespace n t current := by
            intro n t
            rw [expandTask, expandTask, hfind.1]
          rw [hexpand]
          rcases expandTask lib store.get taskNamespace (w.visited.card + 1) w.spent current with
            - | (e | ⟨spent, targets⟩)
          · rfl
          · rfl
          · have hvisited' : ∀ id, id ∈ insert current w.visited ↔
                id ∈ visited ∨ id ∈ insert current frontierIds := by
              intro id
              rw [Finset.mem_insert, Finset.mem_insert, hvisited]
              exact or_left_comm
            refine ih hvisited' ?_
            dsimp only
            rw [Finset.card_insert_of_notMem hcurrent, Nat.sub_succ, hleft, Nat.pred_succ]
            exact hfind.2
        · -- the bound refuses the task before its note is looked at
          have hbound : ∀ find : Id128 → Option Note, expandTask lib find taskNamespace
              (w.visited.card + 1) w.spent current = some (.error .taskBound) :=
            fun find ↦ if_pos (Nat.lt_succ_of_le hge)
          rw [hbound, hbound]
          rfl

end Prefetch

/-- **One search**: loading the notes of a whole frontier at once changes nothing. -/
theorem propertyPathReaches_eq (lib : Libraries) (store : NoteStore) (start goal : Id128)
    (taskNamespace : String) : propertyPathReaches lib store start goal taskNamespace =
      propertyPathReachesOneByOne lib store start goal taskNamespace := by
  have hbody : walkFrontier lib store taskNamespace goal =
      Worklist.nextBatch (expandTask lib store.get taskNamespace) goal := by
    funext w
    rw [walkFrontier, Worklist.nextBatch]
    by_cases hqueue : w.queue = []
    · rw [if_pos hqueue, if_pos hqueue]
    · rw [if_neg hqueue, if_neg hqueue]
      by_cases hhead : w.queue.head? = some goal
      · rw [if_pos hhead]
        obtain ⟨rest, hrest⟩ := List.head?_eq_some_iff.mp hhead
        rw [hrest, Worklist.visitAll, Worklist.visit, if_pos rfl]
        rfl
      · rw [if_neg hhead]
        exact visitAll_prefetched (fun id ↦ by simp) fun id hid ↦ find_getNotesBatch hid
  rw [propertyPathReaches, hbody, propertyPathReachesOneByOne]
  exact Worklist.loop_nextBatch_eq (explores_expandTask lib store.get taskNamespace) start goal
    (Nat.lt_succ_of_le (by rw [Nat.sub_zero, Nat.add_comm]))

theorem returns_propertyPathReaches (lib : Libraries) (store : NoteStore) (start goal : Id128)
    (taskNamespace : String) : Returns (propertyPathReaches lib store start goal taskNamespace)
      fun r ↦ ∀ b, r = .ok b →
        (b = true ↔ ReflTransGen (Names lib store.get taskNamespace) start goal) := by
  rw [propertyPathReaches_eq]
  exact Worklist.returns_search (explores_expandTask lib store.get taskNamespace) start goal
    (Nat.lt_succ_of_le (by rw [Nat.sub_zero, Nat.add_comm]))

/-! ## Accepted updates -/

theorem head_getNotesBatch (store : NoteStore) (id : Id128) :
    (getNotesBatch store [id]).head? = store.get id := by
  rw [getNotesBatch]
  rcases hget : store.get id with - | note
  · rw [List.filterMap_cons_none hget]
    rfl
  · rw [List.filterMap_cons_some hget]
    rfl

theorem validateDependency_eq_ok {task : Note} {dependency : JsonValue}
    (h : validateDependency lib store task dependency = some (.ok ())) :
    ∃ raw id, dependency.asStr = some raw ∧ lib.parseUuid raw = some id ∧ id ≠ task.id ∧
      ¬ReflTransGen (Names lib store.get task.namespace) id task.id := by
  rw [validateDependency] at h
  rcases hraw : dependency.asStr with - | raw
  · rw [hraw] at h
    cases h
  · simp only [hraw] at h
    rcases hid : lib.parseUuid raw with - | id
    · simp only [hid] at h
      cases h
    · simp only [hid, head_getNotesBatch] at h
      by_cases hcanonical : raw ≠ uuidText id
      · rw [if_pos hcanonical] at h
        cases h
      · rw [if_neg hcanonical] at h
        by_cases hself : id = task.id
        · rw [if_pos hself] at h
          cases h
        · rw [if_neg hself] at h
          refine ⟨raw, id, rfl, hid, hself, fun hwalk ↦ ?_⟩
          -- the search would have found the walk
          obtain ⟨r, hr, hreaches⟩ := returns_propertyPathReaches lib store id task.id
            task.namespace
          rw [hr] at h
          have hrefused : ∀ e, Option.map (fun
              | .error e => .error e
              | .ok true => .error (DependencyError.cycle id task.id)
              | .ok false => .ok ()) (some r) ≠ some (Except.ok e) := by
            rintro ⟨⟩ hr
            rcases r with e | b
            · cases hr
            · obtain rfl : b = true := (hreaches b rfl).mpr hwalk
              cases hr
          split at h
          · cases h
          · split at h
            · cases h
            · split at h
              · cases h
              · exact hrefused () h

theorem validateDependencies_eq_ok {task : Note} {dependencies : List JsonValue}
    (h : validateDependencies lib store task dependencies = some (.ok ())) :
    ∀ v ∈ targets lib dependencies, v ≠ task.id ∧
      ¬ReflTransGen (Names lib store.get task.namespace) v task.id := by
  induction dependencies with
  | nil => exact fun v hv ↦ absurd hv List.not_mem_nil
  | cons dependency rest ih =>
    rw [validateDependencies] at h
    obtain ⟨result, hresult, h⟩ := Option.bind_eq_some_iff.mp h
    rcases result with e | ⟨⟩
    · cases h
    · obtain ⟨raw, id, hraw, hid, hself, hwalk⟩ := validateDependency_eq_ok hresult
      have hcons : targets lib (dependency :: rest) = id :: targets lib rest :=
        List.filterMap_cons_some (by rw [hraw]; exact hid)
      rw [hcons, List.forall_mem_cons]
      exact ⟨⟨hself, hwalk⟩, ih h⟩

/-- An update of a task's properties: other notes stay, and the task keeps its place in the graph
but for the list, which is the patch's if it has one. -/
structure Updated (store store' : NoteStore) (task : Note) (properties : Option JsonValue) :
    Prop where
  held : store.get task.id = some task
  other : ∀ id, id ≠ task.id → store'.get id = store.get id
  updated : ∃ task', store'.get task.id = some task' ∧ task'.kind = task.kind ∧
    task'.namespace = task.namespace ∧
    dependsOn task'.properties = (dependsOn properties).or (dependsOn task.properties)

/-- An update that the check accepts. -/
def AcceptedUpdate (lib : Libraries) (store store' : NoteStore) : Prop :=
  ∃ task properties, validatePropertyUpdate lib store task properties = some (.ok ()) ∧
    Updated store store' task properties

/-- The updated task names only what the patch lists, or what it named before. -/
theorem Updated.names_task {task : Note} {properties : Option JsonValue}
    (h : Updated store store' task properties)
    (hnames : Names lib store'.get taskNamespace task.id v) :
    task.namespace = taskNamespace ∧
      ((∃ value dependencies, dependsOn properties = some value ∧
        value.asArray = some dependencies ∧ v ∈ targets lib dependencies) ∨
      dependsOn properties = none ∧ Names lib store.get taskNamespace task.id v) := by
  obtain ⟨task', htask', hkind', hnamespace', hlist⟩ := h.updated
  obtain ⟨note, dependencies, hnote, hkind, hnamespace, hdeps, hv⟩ := hnames
  obtain rfl := Option.some.inj (htask'.symm.trans hnote)
  refine ⟨hnamespace'.symm.trans hnamespace, ?_⟩
  rw [Note.dependencies, hlist] at hdeps
  rcases hpatch : dependsOn properties with - | value
  · rw [hpatch, Option.none_or] at hdeps
    exact Or.inr ⟨rfl, task, dependencies, h.held, hkind'.symm.trans hkind,
      hnamespace'.symm.trans hnamespace, hdeps, hv⟩
  · rw [hpatch, Option.some_or] at hdeps
    exact Or.inl ⟨value, dependencies, rfl, hdeps, hv⟩

/-- **An accepted update** adds no cycle. -/
theorem acyclic_of_acceptedUpdate (h : AcceptedUpdate lib store store')
    (hacyclic : Acyclic lib store taskNamespace) : Acyclic lib store' taskNamespace := by
  obtain ⟨task, properties, hvalid, hupdated⟩ := h
  rw [acyclic_iff] at hacyclic ⊢
  -- only the updated task has other steps than before
  have hagree : ∀ a b, a ≠ task.id → Names lib store'.get taskNamespace a b →
      Names lib store.get taskNamespace a b := by
    rintro a b ha ⟨note, dependencies, hnote, hrest⟩
    exact ⟨note, dependencies, (hupdated.other a ha).symm.trans hnote, hrest⟩
  refine not_transGen_of_agree hagree hacyclic fun hcycle ↦ ?_
  obtain ⟨v, hstep, hwalk⟩ := TransGen.head'_iff.mp hcycle
  have hold := reflTransGen_of_agree hagree hwalk
  obtain ⟨rfl, ⟨value, dependencies, hpatch, harray, hv⟩ | ⟨-, hnames⟩⟩ :=
    hupdated.names_task hstep
  · rw [validatePropertyUpdate, hpatch] at hvalid
    simp only [harray] at hvalid
    by_cases hbound : dependencyWalkMaxNodes < dependencies.length
    · rw [if_pos hbound] at hvalid
      cases hvalid
    · rw [if_neg hbound] at hvalid
      exact (validateDependencies_eq_ok hvalid v hv).2 hold
  · exact hacyclic task.id (TransGen.head' hnames hold)

end Graph

/-- **Accepted updates**, one after the other, keep the dependencies of every namespace without
cycles, and the search that decides them is the plain breadth-first search, refusals included. -/
theorem accepted_updates_acyclic (lib : Libraries) :
    (∀ store store' taskNamespace, ReflTransGen (AcceptedUpdate lib) store store' →
      Acyclic lib store taskNamespace → Acyclic lib store' taskNamespace) ∧
    ∀ store start goal taskNamespace, ∃ r,
      propertyPathReaches lib store start goal taskNamespace = some r ∧
      propertyPathReachesOneByOne lib store start goal taskNamespace = some r := by
  refine ⟨fun store store' taskNamespace hrun hacyclic ↦ ?_,
    fun store start goal taskNamespace ↦ ?_⟩
  · induction hrun with
    | refl => exact hacyclic
    | tail _ hstep ih => exact acyclic_of_acceptedUpdate hstep ih
  · obtain ⟨r, hr, -⟩ := returns_propertyPathReaches lib store start goal taskNamespace
    exact ⟨r, hr, (propertyPathReaches_eq lib store start goal taskNamespace).symm.trans hr⟩

namespace Sample

/-- A UUID parser that knows one text. -/
def libraries : Libraries where
  parseUuid raw := if raw = uuidText 2 then some 2 else none
  maskForGateProbe text := text
  unprintable _ := false

/-- Two tasks that depend on nothing. -/
def twoTasks : NoteStore := ⟨[⟨1, "task", "local", none⟩, ⟨2, "task", "local", none⟩], by decide⟩

def dependsOnSecond : JsonValue := .object [("depends_on", .array [.string (uuidText 2)])]

/-- The first task depends on the second. -/
def linkedTasks : NoteStore := twoTasks.put ⟨1, "task", "local", some dependsOnSecond⟩

theorem acyclic_twoTasks : Acyclic libraries twoTasks "local" := by
  intro u hcycle
  obtain ⟨v, ⟨⟨note, dependencies, hnote, -, -, hdependencies, -⟩, -⟩, -⟩ :=
    TransGen.head'_iff.mp hcycle
  have hplain : ∀ note ∈ twoTasks.rows, note.properties.isNone := by decide
  rw [Note.dependencies, Option.isNone_iff_eq_none.mp (hplain note (Table.mem_of_get hnote))]
    at hdependencies
  cases hdependencies

end Sample

/-- An accepted update that adds a dependency. -/
theorem accepted_updates_acyclic_linked :
    AcceptedUpdate Sample.libraries Sample.twoTasks Sample.linkedTasks ∧
      DependsOn Sample.libraries Sample.linkedTasks "local" 1 2 ∧
      Acyclic Sample.libraries Sample.linkedTasks "local" := by
  have hupdate : AcceptedUpdate Sample.libraries Sample.twoTasks Sample.linkedTasks := by
    refine ⟨⟨1, "task", "local", none⟩, some Sample.dependsOnSecond, by decide +kernel,
      ⟨rfl, fun id hid ↦ Table.get_put_of_ne hid, _, rfl, rfl, rfl, rfl⟩⟩
  refine ⟨hupdate, ⟨⟨_, _, rfl, rfl, rfl, rfl, by decide +kernel⟩, _, rfl, rfl, rfl⟩, ?_⟩
  exact (accepted_updates_acyclic Sample.libraries).1 _ _ "local" (.single hupdate)
    Sample.acyclic_twoTasks

end Gtd

end Khive

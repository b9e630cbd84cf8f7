import Arweave.Lib.Sorted

/-!
# The diff DAG

A directed acyclic graph with one sink, which stores a large entity. The edges store diffs, and
the entity of a node is the one of the sink with the diffs on the way from the sink to the node
applied. A node is made the sink by turning the edges on its way around.
-/

namespace Arweave.DiffDag

open Lib

/-- The sink stores the entity, the other nodes the identifier of the node that their edge leads
to and the diff. A node also has the number of its generation and its metadata. -/
inductive Node (ID E D M : Type)
  | sink (entity : E) (info : Nat × M)
  | edge (sinkId : ID) (diff : D) (info : Nat × M)
  deriving DecidableEq

def Node.info {ID E D M : Type} : Node ID E D M → Nat × M
  | .sink _ info => info
  | .edge _ _ info => info

structure Dag (ID E D M : Type) [LinearOrder ID] where
  sinks : SortedMap ID (Node ID E D M)
  sink : ID
  sources : SortedMap ID (OrdSet ID)
  deriving DecidableEq

/-- The order in which the elements of a set or a map are visited. -/
structure Order (ID : Type) where
  order : List ID → List ID
  perm : ∀ l, (order l).Perm l

variable {ID E D M : Type} [LinearOrder ID]

def new (id : ID) (entity : E) (metadata : M) : Dag ID E D M where
  sinks := SortedMap.empty.insert id (.sink entity (0, metadata))
  sink := id
  sources := SortedMap.empty.insert id .empty

def getSink (dag : Dag ID E D M) : Option E :=
  match dag.sinks.lookup dag.sink with
  | some (.sink entity _) => some entity
  | _ => none

def isNode (dag : Dag ID E D M) (id : ID) : Bool := (dag.sinks.lookup id).isSome

def getMetadata (dag : Dag ID E D M) (id : ID) : Option M := (dag.sinks.lookup id).map fun n => n.info.2

def Dag.sourcesOf (dag : Dag ID E D M) (id : ID) : OrdSet ID := (dag.sources.lookup id).getD .empty

/-- A new node with an edge to an existing one. -/
def addNode (dag : Dag ID E D M) (sourceId sinkId : ID) (diff : D) (metadata : M) : Option (Dag ID E D M) :=
  if sourceId = sinkId then none
  else if isNode dag sourceId then none
  else do
    let target ← dag.sinks.lookup sinkId
    some {
      sinks := dag.sinks.insert sourceId (.edge sinkId diff (target.info.1 + 1, metadata))
      sink := dag.sink
      sources := (dag.sources.insert sinkId ((dag.sourcesOf sinkId).add sourceId)).insert sourceId .empty }

/-- The update function returns the new identifier, diff and metadata of the node. -/
def updateLeafSource (dag : Dag ID E D M) (id : ID) (updateFun : D → M → Option (ID × D × M)) :
    Option (Dag ID E D M) :=
  match dag.sinks.lookup id with
  | some (.edge sinkId diff (counter, metadata)) =>
    if id = dag.sink then none
    else if (dag.sourcesOf id).isEmpty = false then none
    else do
      let (newId, diff2, metadata2) ← updateFun diff metadata
      let siblings ← dag.sources.lookup sinkId
      some {
        sinks := (dag.sinks.erase id).insert newId (.edge sinkId diff2 (counter, metadata2))
        sink := dag.sink
        sources := (dag.sources.erase id).insert sinkId ((siblings.erase id).add newId) }
  | _ => none

/-- The edge of a node that leads to the given sink is led to the new one. -/
def redirect (id newId : ID) (sinks : SortedMap ID (Node ID E D M)) (sourceId : ID) :
    Option (SortedMap ID (Node ID E D M)) :=
  match sinks.lookup sourceId with
  | some (.edge sinkId diff info) => if sinkId = id then some (sinks.insert sourceId (.edge newId diff info)) else none
  | _ => none

section Orders

variable (ord : Order ID)

/-- The update function returns the new identifier, entity and metadata of the sink. -/
def updateSink (dag : Dag ID E D M) (id : ID) (updateFun : E → M → Option (ID × E × M)) : Option (Dag ID E D M) :=
  if id = dag.sink then
    match dag.sinks.lookup id with
    | some (.sink entity (counter, metadata)) => do
      let (newId, entity2, metadata2) ← updateFun entity metadata
      let sinks3 := (dag.sinks.erase id).insert newId (.sink entity2 (counter, metadata2))
      let set := dag.sourcesOf id
      let sinks4 ← (ord.order set.elems).foldlM (redirect id newId) sinks3
      some { sinks := sinks4, sink := newId, sources := (dag.sources.erase id).insert newId set }
    | _ => none
  else none

def extendWithSubtreeIdentifiers :
    Nat → SortedMap ID (OrdSet ID) × OrdSet ID → ID → Option (SortedMap ID (OrdSet ID) × OrdSet ID)
  | 0, _, _ => none
  | fuel + 1, (sources, toRemove), id =>
    (ord.order ((sources.lookup id).getD .empty).elems).foldlM (extendWithSubtreeIdentifiers fuel)
      (sources.erase id, toRemove.add id)

/-- Marks the subtree of a node that is too far from the sink. -/
def filterNode (dag : Dag ID E D M) (sinkCounter depth : Nat) (acc : SortedMap ID (OrdSet ID) × OrdSet ID)
    (id : ID) : Option (SortedMap ID (OrdSet ID) × OrdSet ID) :=
  if id ∈ acc.2 then some acc
  else do
    let n ← dag.sinks.lookup id
    if ((n.info.1 : Int) - sinkCounter).natAbs ≤ depth then some acc
    else extendWithSubtreeIdentifiers ord (dag.sinks.size + 1) acc id

def removeNode (toRemove : OrdSet ID) (acc : SortedMap ID (Node ID E D M) × SortedMap ID (OrdSet ID)) (id : ID) :
    Option (SortedMap ID (Node ID E D M) × SortedMap ID (OrdSet ID)) :=
  match acc.1.lookup id with
  | some (.edge sinkId _ _) =>
    let sources :=
      if sinkId ∈ toRemove then acc.2
      else acc.2.insert sinkId (((acc.2.lookup sinkId).getD .empty).erase id)
    some (acc.1.erase id, sources)
  -- the sink is not far from itself
  | _ => none

/-- Removes the nodes whose generation is further from the sink's than the depth, and the nodes
that lead to them. -/
def filter (dag : Dag ID E D M) (depth : Nat) : Option (Dag ID E D M) :=
  match dag.sinks.lookup dag.sink with
  | some (.sink _ (sinkCounter, _)) => do
    let (sources2, toRemove) ← (ord.order (dag.sinks.entries.map Prod.fst)).foldlM
      (filterNode ord dag sinkCounter depth) (dag.sources, .empty)
    let (sinks, sources) ← (ord.order toRemove.elems).foldlM (removeNode toRemove) (dag.sinks, sources2)
    some { sinks := sinks, sink := dag.sink, sources := sources }
  | _ => none

end Orders

section Diffs

variable (apply : D → E → Option E) (reverse : D → E → D)

/-- A walk that comes back to a node it has seen never ends, so the steps are bounded by the
number of nodes. -/
def reconstructFrom (dag : Dag ID E D M) : Nat → ID → List D → Option E
  | 0, _, _ => none
  | fuel + 1, id, diffs =>
    match dag.sinks.lookup id with
    | some (.sink entity _) =>
      if id = dag.sink then diffs.foldlM (fun e d => apply d e) entity else none
    | some (.edge sinkId diff _) => reconstructFrom dag fuel sinkId (diff :: diffs)
    | none => none

/-- The entity of a node, or `some none` when there is no such node. -/
def reconstruct (dag : Dag ID E D M) (id : ID) : Option (Option E) :=
  if isNode dag id then (reconstructFrom apply dag (dag.sinks.size + 1) id []).map some
  else some none

/-- Turns the edge of a node to the current sink around. -/
def turnEdge (acc : ID × E × (Nat × M) × Dag ID E D M) (step : ID × D × (Nat × M)) :
    Option (ID × E × (Nat × M) × Dag ID E D M) := do
  let (sourceId, entity, info, dag) := acc
  let (sinkId, diff, sinkInfo) := step
  let sourceIdSet ← dag.sources.lookup sourceId
  let entity2 ← apply diff entity
  some (sinkId, entity2, sinkInfo, {
    sinks := dag.sinks.insert sourceId (.edge sinkId (reverse diff entity) info)
    sink := sinkId
    sources := (dag.sources.insert sinkId ((dag.sourcesOf sinkId).add sourceId)).insert sourceId
      (sourceIdSet.erase sinkId) })

def moveSinkFrom (dag : Dag ID E D M) : Nat → ID → List (ID × D × (Nat × M)) → Option (Dag ID E D M)
  | 0, _, _ => none
  | fuel + 1, id, diffs =>
    match dag.sinks.lookup id with
    | some (.sink entity info) =>
      if id = dag.sink then do
        let (id2, entity2, info2, dag2) ← diffs.foldlM (turnEdge apply reverse) (id, entity, info, dag)
        some { dag2 with sinks := dag2.sinks.insert id2 (.sink entity2 info2) }
      else none
    | some (.edge sinkId diff info) => moveSinkFrom dag fuel sinkId ((id, diff, info) :: diffs)
    | none => none

/-- Makes the node the sink. -/
def moveSink (dag : Dag ID E D M) (id : ID) : Option (Dag ID E D M) :=
  if isNode dag id then moveSinkFrom apply reverse dag (dag.sinks.size + 1) id [] else none

end Diffs

end Arweave.DiffDag

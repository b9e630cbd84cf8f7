import Arweave.DiffDag.Moves

/-!
# Runs of the DAG

The operations on a DAG one after another. As long as no update gives a node the identifier of
another one, every node leads to the sink, the sources are the nodes whose edges lead to a node,
and the sink can be moved to any node without a change of an entity or of metadata.
-/

namespace Arweave.DiffDag

open Lib

variable {ID E D M : Type} [LinearOrder ID]

inductive Op (ID E D M : Type)
  | addNode (sourceId sinkId : ID) (diff : D) (metadata : M)
  | updateLeafSource (id : ID) (updateFun : D → M → Option (ID × D × M))
  | updateSink (id : ID) (updateFun : E → M → Option (ID × E × M))
  | moveSink (id : ID)
  | filter (depth : Nat)

variable (ord : Order ID) (apply : D → E → Option E) (reverse : D → E → D)

def step (dag : Dag ID E D M) : Op ID E D M → Option (Dag ID E D M)
  | .addNode sourceId sinkId diff metadata => addNode dag sourceId sinkId diff metadata
  | .updateLeafSource id updateFun => updateLeafSource dag id updateFun
  | .updateSink id updateFun => updateSink ord dag id updateFun
  | .moveSink id => moveSink apply reverse dag id
  | .filter depth => filter ord dag depth

/-- A run starts with a new DAG. -/
def run (id : ID) (entity : E) (metadata : M) (ops : List (Op ID E D M)) : Option (Dag ID E D M) :=
  ops.foldlM (step ord apply reverse) (new id entity metadata)

/-- An update does not give the node the identifier of another one. -/
def Op.fresh (dag : Dag ID E D M) : Op ID E D M → Bool
  | .updateLeafSource id updateFun =>
    match dag.sinks.lookup id with
    | some (.edge _ diff (_, metadata)) => (updateFun diff metadata).all fun new => new.1 = id || !isNode dag new.1
    | _ => true
  | .updateSink id updateFun =>
    match dag.sinks.lookup id with
    | some (.sink entity (_, metadata)) => (updateFun entity metadata).all fun new => new.1 = id || !isNode dag new.1
    | _ => true
  | _ => true

/-- No update of the operations, performed one after another, gives a node the identifier of
another one. -/
def allFresh (dag : Dag ID E D M) : List (Op ID E D M) → Bool
  | [] => true
  | op :: ops => op.fresh dag && (step ord apply reverse dag op).all fun dag' => allFresh dag' ops

/-- Every node leads to the sink, none to itself, and the sources are the nodes whose edges lead to
a node. -/
def Rooted (dag : Dag ID E D M) : Prop :=
  (∀ x, isNode dag x = true → Relation.ReflTransGen (fun a b => dag.edge a = some b) x dag.sink) ∧
  (∀ x, ¬ Relation.TransGen (fun a b => dag.edge a = some b) x x) ∧
  ∀ x y, y ∈ dag.sourcesOf x ↔ dag.edge y = some x

/-- The sink can be moved to every node, and each node keeps its entity and its metadata. -/
def Movable (dag : Dag ID E D M) : Prop :=
  ∀ id, isNode dag id = true → ∃ dag', moveSink apply reverse dag id = some dag' ∧ dag'.sink = id ∧
    ∀ x, isNode dag' x = isNode dag x ∧ reconstruct apply dag' x = reconstruct apply dag x ∧
      getMetadata dag' x = getMetadata dag x ∧ (isNode dag x = true → ∃ e, reconstruct apply dag x = some (some e))

variable {ord apply reverse} {dag dag' : Dag ID E D M} {x : ID}

lemma WellFormed.rooted (h : WellFormed dag) : Rooted dag := by
  refine ⟨fun x hx => ?_, fun x hcycle => ?_, h.sources⟩
  · obtain ⟨n, hwalk⟩ := h.walk x hx
    exact hwalk.leads
  · obtain ⟨y, hedge, -⟩ := Relation.TransGen.head'_iff.mp hcycle
    obtain ⟨n, hwalk⟩ := h.walk x (WellFormed.isNode_source hedge)
    exact hwalk.not_transGen_self h.edge_sink hcycle

lemma Moved.isNode_eq {R : E → E → Prop} {Ok : D → Prop} (hm : Moved R Ok apply dag dag' x) (z : ID) :
    isNode dag' z = isNode dag z := by
  rw [isNode, isNode, ← Option.isSome_map (f := Node.info), hm.info, Option.isSome_map]

lemma undoes_eq (hundo : ∀ d e, ∃ e', apply d e = some e' ∧ apply (reverse d e) e' = some e) :
    Undoes Eq (fun _ => True) apply reverse where
  symm := Eq.symm
  trans := Eq.trans
  congr := by
    rintro d e _ - rfl
    obtain ⟨e', happly, -⟩ := hundo d e
    exact ⟨e', e', happly, happly, rfl⟩
  reverseOk := fun _ _ => trivial
  undo := by
    rintro d e e' - - happly
    obtain ⟨e1, happly1, hundo1⟩ := hundo d e
    rw [happly, Option.some.injEq] at happly1
    exact ⟨e, happly1 ▸ hundo1, rfl⟩

lemma valued_eq (dag : Dag ID E D M) : Valued Eq (fun _ => True) dag := ⟨fun _ _ _ _ _ => trivial, fun _ _ _ => rfl⟩

lemma WellFormed.movable (hundo : ∀ d e, ∃ e', apply d e = some e' ∧ apply (reverse d e) e' = some e)
    (h : WellFormed dag) : Movable apply reverse dag := by
  intro id hid
  have U := undoes_eq hundo
  obtain ⟨dag', hmove, hm⟩ := h.moveSink U (valued_eq dag) hid
  refine ⟨dag', hmove, hm.sink, fun x => ⟨hm.isNode_eq x, ?_, ?_, fun hx => ?_⟩⟩
  · cases hx : isNode dag x with
    | false => rw [reconstruct, reconstruct, hm.isNode_eq, hx, if_neg (by simp), if_neg (by simp)]
    | true =>
      obtain ⟨v, hv, -⟩ := (valued_eq dag).exists_value U h hx
      obtain ⟨v', hv', rfl⟩ := hm.value x v hv
      rw [hv'.reconstruct hm.wellFormed, hv.reconstruct h]
  · have hinfo := congrArg (Option.map Prod.snd) (hm.info x)
    rwa [Option.map_map, Option.map_map] at hinfo
  · obtain ⟨v, hv, -⟩ := (valued_eq dag).exists_value U h hx
    exact ⟨v, hv.reconstruct h⟩

lemma isNode_of_moveSink (h : moveSink apply reverse dag x = some dag') : isNode dag x = true := by
  unfold moveSink at h
  split_ifs at h with hx
  exact hx

lemma WellFormed.step (hundo : ∀ d e, ∃ e', apply d e = some e' ∧ apply (reverse d e) e' = some e)
    (h : WellFormed dag) {op : Op ID E D M} (hfresh : op.fresh dag = true)
    (hstep : step ord apply reverse dag op = some dag') : WellFormed dag' := by
  cases op with
  | addNode sourceId sinkId diff metadata => exact h.addNode hstep
  | updateLeafSource id f =>
    refine h.updateLeafSource hstep fun y diff info newId diff2 metadata2 hlookup hf => ?_
    simpa [Op.fresh, hlookup, hf] using hfresh
  | updateSink id f =>
    refine h.updateSink hstep fun e info newId e2 metadata2 hlookup hf => ?_
    simpa [Op.fresh, hlookup, hf] using hfresh
  | moveSink id =>
    obtain ⟨dag1, hmove, hm⟩ := h.moveSink (undoes_eq hundo) (valued_eq dag) (isNode_of_moveSink hstep)
    rw [DiffDag.step, hmove, Option.some.injEq] at hstep
    exact hstep ▸ hm.wellFormed
  | filter depth =>
    obtain ⟨dag1, gone, hfilter, hp, -⟩ := h.filter ord depth
    rw [DiffDag.step, hfilter, Option.some.injEq] at hstep
    exact hstep ▸ hp.wellFormed h

lemma WellFormed.run (hundo : ∀ d e, ∃ e', apply d e = some e' ∧ apply (reverse d e) e' = some e)
    (h : WellFormed dag) {ops : List (Op ID E D M)} (hfresh : allFresh ord apply reverse dag ops = true)
    (hrun : ops.foldlM (DiffDag.step ord apply reverse) dag = some dag') : WellFormed dag' := by
  induction ops generalizing dag with
  | nil => exact (Option.some.inj hrun) ▸ h
  | cons op ops ih =>
    rw [List.foldlM_cons] at hrun
    obtain ⟨dag1, hstep, hrest⟩ := Option.bind_eq_some_iff.mp hrun
    rw [allFresh, Bool.and_eq_true, hstep, Option.all_some] at hfresh
    exact ih (h.step hundo hfresh.1 hstep) hfresh.2 hrest

/-- In a run whose updates give no node the identifier of another one, the DAG stays rooted and
movable. -/
theorem run_rooted_movable (ord : Order ID) (apply : D → E → Option E) (reverse : D → E → D)
    (hundo : ∀ d e, ∃ e', apply d e = some e' ∧ apply (reverse d e) e' = some e) (id : ID) (entity : E) (metadata : M)
    (ops : List (Op ID E D M)) (dag : Dag ID E D M)
    (hfresh : allFresh ord apply reverse (new id entity metadata) ops = true)
    (hrun : run ord apply reverse id entity metadata ops = some dag) :
    Rooted dag ∧ Movable apply reverse dag := by
  have hwf : WellFormed dag := (wellFormed_new id entity metadata).run hundo hfresh hrun
  exact ⟨hwf.rooted, hwf.movable hundo⟩

section Samples

/-- Visits the elements in ascending order. -/
def ascending (ID : Type) : Order ID := ⟨fun l => l, fun _ => .refl _⟩

def addDiff (d e : Int) : Option Int := some (e + d)

def negateDiff (d _ : Int) : Int := -d

/-- Two nodes on the sink, a move to one of them, a renamed leaf and a renamed sink. -/
def forkOps : List (Op Nat Int Int Nat) :=
  [.addNode 2 1 1 12, .addNode 3 1 2 13, .moveSink 2, .updateLeafSource 3 fun d m => some (4, d + 1, m),
    .updateSink 2 fun e m => some (5, e, m), .filter 3]

theorem run_rooted_movable_forkOps :
    ∃ dag, run (ascending Nat) addDiff negateDiff 1 0 11 forkOps = some dag ∧ Rooted dag ∧
      Movable addDiff negateDiff dag := by
  have hundo : ∀ d e, ∃ e', addDiff d e = some e' ∧ addDiff (negateDiff d e) e' = some e := fun d e =>
    ⟨e + d, rfl, by simp [addDiff, negateDiff]⟩
  have hrun : (run (ascending Nat) addDiff negateDiff 1 0 11 forkOps).isSome = true := by decide
  obtain ⟨dag, hdag⟩ := Option.isSome_iff_exists.mp hrun
  exact ⟨dag, hdag, run_rooted_movable _ _ _ hundo 1 0 11 forkOps dag (by decide) hdag⟩

/-- A leaf that is given the identifier of the sink leads to itself. -/
theorem not_rooted_renamed :
    ∃ dag, run (ascending Nat) addDiff negateDiff 1 0 11
        [.addNode 2 1 1 12, .updateLeafSource 2 fun d m => some (1, d, m)] = some dag ∧ ¬ Rooted dag := by
  have hrun : (run (ascending Nat) addDiff negateDiff 1 0 11
      [.addNode 2 1 1 12, .updateLeafSource 2 fun d m => some (1, d, m)]).map (·.edge 1) = some (some 1) := by decide
  obtain ⟨dag, hdag, hedge⟩ := Option.map_eq_some_iff.mp hrun
  exact ⟨dag, hdag, fun hrooted => hrooted.2.1 1 (.single hedge)⟩

end Samples

end Arweave.DiffDag

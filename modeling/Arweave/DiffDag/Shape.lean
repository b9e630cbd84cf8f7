import Arweave.DiffDag.Dag
import Arweave.Lib.Walk

/-!
# The shape of the DAG

Every node leads to the sink, and the sources of a node are the nodes whose edges lead to it. The
operations that add and rename nodes keep this, as long as a node is not given the identifier of
another one.
-/

namespace Arweave.DiffDag

open Lib

variable {ID E D M : Type} [LinearOrder ID] {dag dag' : Dag ID E D M} {x y z : ID} {e : E} {d : D} {info : Nat × M}

/-- The node that the edge of a node leads to. -/
def Dag.edge (dag : Dag ID E D M) (x : ID) : Option ID :=
  match dag.sinks.lookup x with
  | some (.edge y _ _) => some y
  | _ => none

lemma edge_of_lookup (h : dag.sinks.lookup x = some (.edge y d info)) : dag.edge x = some y := by
  rw [Dag.edge, h]

lemma edge_eq_some : dag.edge x = some y ↔ ∃ d info, dag.sinks.lookup x = some (.edge y d info) := by
  constructor
  · intro h
    unfold Dag.edge at h
    split at h
    · rename_i z d info hlookup
      exact ⟨d, info, (Option.some.inj h) ▸ hlookup⟩
    · cases h
  · rintro ⟨d, info, h⟩
    exact edge_of_lookup h

lemma edge_of_lookup_eq_none (h : dag.sinks.lookup x = none) : dag.edge x = none := by
  rw [Dag.edge, h]

lemma isNode_iff : isNode dag x = true ↔ ∃ n, dag.sinks.lookup x = some n := Option.isSome_iff_exists

lemma isNode_of_lookup {n : Node ID E D M} (h : dag.sinks.lookup x = some n) : isNode dag x = true :=
  isNode_iff.mpr ⟨n, h⟩

lemma isNode_eq_false : isNode dag x = false ↔ dag.sinks.lookup x = none := by
  rw [isNode, Option.isSome_eq_false_iff, Option.isNone_iff_eq_none]

structure WellFormed (dag : Dag ID E D M) : Prop where
  sink : ∃ e info, dag.sinks.lookup dag.sink = some (.sink e info)
  only : ∀ x e info, dag.sinks.lookup x = some (.sink e info) → x = dag.sink
  walk : ∀ x, isNode dag x = true → ∃ n, Walk dag.edge dag.sink x n
  sources : ∀ x y, y ∈ dag.sourcesOf x ↔ dag.edge y = some x

namespace WellFormed

lemma edge_sink (h : WellFormed dag) : dag.edge dag.sink = none := by
  obtain ⟨e, info, hlookup⟩ := h.sink
  rw [Dag.edge, hlookup]

lemma isNode_sink (h : WellFormed dag) : isNode dag dag.sink = true := by
  obtain ⟨e, info, hlookup⟩ := h.sink
  exact isNode_of_lookup hlookup

lemma isNode_source (hedge : dag.edge x = some y) : isNode dag x = true := by
  obtain ⟨d, info, hlookup⟩ := edge_eq_some.mp hedge
  exact isNode_of_lookup hlookup

lemma isNode_target (h : WellFormed dag) (hedge : dag.edge x = some y) : isNode dag y = true := by
  obtain ⟨n, hwalk⟩ := h.walk x (isNode_source hedge)
  cases hwalk with
  | root =>
    rw [h.edge_sink] at hedge
    cases hedge
  | step hnext hwalk =>
    rw [hedge, Option.some.injEq] at hnext
    subst hnext
    cases hwalk with
    | root => exact h.isNode_sink
    | step hnext' _ => exact isNode_source hnext'

lemma exists_edge (h : WellFormed dag) (hx : isNode dag x = true) (hne : x ≠ dag.sink) :
    ∃ y d info, dag.sinks.lookup x = some (.edge y d info) := by
  obtain ⟨n, hn⟩ := isNode_iff.mp hx
  cases n with
  | sink e info => exact absurd (h.only x e info hn) hne
  | edge y d info => exact ⟨y, d, info, hn⟩

lemma ne_sink (h : WellFormed dag) (hedge : dag.edge x = some y) : x ≠ dag.sink := by
  rintro rfl
  rw [h.edge_sink] at hedge
  cases hedge

lemma walk_length_le (h : WellFormed dag) {n : Nat} (hwalk : Walk dag.edge dag.sink x n) :
    n ≤ dag.sinks.size := by
  have hle := hwalk.length_le h.edge_sink (l := dag.sinks.entries.map Prod.fst) fun y z hyz => ?_
  · rwa [List.length_map] at hle
  · obtain ⟨d, info, hlookup⟩ := edge_eq_some.mp hyz
    exact List.mem_map.mpr ⟨_, SortedMap.lookup_eq_some.mp hlookup, rfl⟩

end WellFormed

lemma sourcesOf_insert (dag : Dag ID E D M) {sources : SortedMap ID (OrdSet ID)} {S : OrdSet ID}
    (h : dag.sources = sources.insert x S) :
    dag.sourcesOf y = if y = x then S else (sources.lookup y).getD .empty := by
  rw [Dag.sourcesOf, h, SortedMap.lookup_insert]
  split_ifs <;> rfl

lemma lookup_new {id : ID} {metadata : M} [Decidable (x = id)] :
    (new id e metadata : Dag ID E D M).sinks.lookup x = if x = id then some (.sink e (0, metadata)) else none := by
  rw [new, SortedMap.lookup_insert]
  rfl

lemma wellFormed_new (id : ID) (e : E) (metadata : M) : WellFormed (new id e metadata : Dag ID E D M) := by
  have hedge : ∀ y, (new id e metadata : Dag ID E D M).edge y = none := by
    intro y
    rw [Dag.edge, lookup_new]
    split_ifs <;> rfl
  refine ⟨⟨e, (0, metadata), by rw [lookup_new]; exact if_pos rfl⟩, fun x e' info h => ?_, fun x hx => ?_, fun x y => ?_⟩
  · rw [lookup_new, Option.ite_none_right_eq_some] at h
    exact h.1
  · obtain ⟨n, hn⟩ := isNode_iff.mp hx
    rw [lookup_new, Option.ite_none_right_eq_some] at hn
    exact ⟨0, hn.1 ▸ .root⟩
  · rw [sourcesOf_insert (new id e metadata) rfl, hedge]
    split_ifs <;> simp

section Hanging

variable {leaf : Option ID} {new target : ID}

/-- A node is hung on another one, in the place of a leaf or beside all the others. -/
structure Hangs (dag dag' : Dag ID E D M) (leaf : Option ID) (new target : ID) : Prop where
  sink : dag'.sink = dag.sink
  fresh : leaf = some new ∨ isNode dag new = false
  childless : ∀ y z, leaf = some z → dag.edge y ≠ some z
  sink_ne : leaf ≠ some dag.sink
  target_ne : leaf ≠ some target
  isNode_target : isNode dag target = true
  edge : dag'.edge new = some target
  other : ∀ z, z ≠ new → dag'.sinks.lookup z = if leaf = some z then none else dag.sinks.lookup z
  sources : ∀ z w, w ∈ dag'.sourcesOf z ↔ w = new ∧ z = target ∨ w ≠ new ∧ leaf ≠ some w ∧ w ∈ dag.sourcesOf z

lemma Hangs.wellFormed (hh : Hangs dag dag' leaf new target) (h : WellFormed dag) : WellFormed dag' := by
  have hnew : ∀ {z}, isNode dag z = true → leaf ≠ some z → z ≠ new := by
    rintro z hz hleaf rfl
    obtain heq | hnot := hh.fresh
    · exact hleaf heq
    · rw [hnot] at hz
      cases hz
  have hsame : ∀ z, z ≠ new → leaf ≠ some z → dag'.sinks.lookup z = dag.sinks.lookup z := by
    intro z hz hleaf
    rw [hh.other z hz, if_neg hleaf]
  have hedge : ∀ z, z ≠ new → leaf ≠ some z → dag'.edge z = dag.edge z := by
    intro z hz hleaf
    rw [Dag.edge, hsame z hz hleaf, Dag.edge]
  have hkept : ∀ {a b}, dag.edge a = some b → b ≠ new ∧ leaf ≠ some b := by
    intro a b hab
    have hleaf : leaf ≠ some b := fun heq => hh.childless a b heq hab
    exact ⟨hnew (h.isNode_target hab) hleaf, hleaf⟩
  have hwalk : ∀ z n, z ≠ new → leaf ≠ some z → Walk dag.edge dag.sink z n → Walk dag'.edge dag'.sink z n := by
    intro z n hz hleaf hw
    rw [hh.sink]
    refine hw.transfer (P := fun a => a ≠ new ∧ leaf ≠ some a) (f := fun a => a) (fun a b ha hab => ?_) ⟨hz, hleaf⟩
    exact ⟨hkept hab, (hedge a ha.1 ha.2).trans hab⟩
  refine ⟨?_, fun z e info hz => ?_, fun z hz => ?_, fun z w => ?_⟩
  · rw [hh.sink, hsame _ (hnew h.isNode_sink hh.sink_ne) hh.sink_ne]
    exact h.sink
  · rw [hh.sink]
    by_cases hzn : z = new
    · have hedgeNew := hh.edge
      rw [← hzn, Dag.edge, hz] at hedgeNew
      cases hedgeNew
    · rw [hh.other z hzn] at hz
      split_ifs at hz
      exact h.only z e info hz
  · by_cases hzn : z = new
    · obtain ⟨n, hw⟩ := h.walk target hh.isNode_target
      exact ⟨n + 1, hzn ▸ .step hh.edge (hwalk _ _ (hnew hh.isNode_target hh.target_ne) hh.target_ne hw)⟩
    · have hleaf : leaf ≠ some z := by
        intro heq
        rw [isNode, hh.other z hzn, if_pos heq] at hz
        cases hz
      rw [isNode, hsame z hzn hleaf] at hz
      obtain ⟨n, hw⟩ := h.walk z hz
      exact ⟨n, hwalk z n hzn hleaf hw⟩
  · rw [hh.sources]
    by_cases hwn : w = new
    · rw [hwn, hh.edge, Option.some.injEq]
      simp only [ne_eq, not_true_eq_false, true_and, false_and, or_false]
      exact eq_comm
    · by_cases hleaf : leaf = some w
      · have hnone : dag'.edge w = none := edge_of_lookup_eq_none (by rw [hh.other w hwn, if_pos hleaf])
        rw [hnone]
        simp [hwn, hleaf]
      · rw [hedge w hwn hleaf, ← h.sources]
        simp [hwn, hleaf]

end Hanging

section AddNode

variable {sourceId sinkId : ID} {metadata : M}

lemma addNode_cases (h : addNode dag sourceId sinkId d metadata = some dag') :
    sourceId ≠ sinkId ∧ dag.sinks.lookup sourceId = none ∧ ∃ target, dag.sinks.lookup sinkId = some target ∧
      dag' = {
        sinks := dag.sinks.insert sourceId (.edge sinkId d (target.info.1 + 1, metadata))
        sink := dag.sink
        sources := (dag.sources.insert sinkId ((dag.sourcesOf sinkId).add sourceId)).insert sourceId .empty } := by
  unfold addNode at h
  split_ifs at h with hne hnode
  obtain ⟨target, htarget, heq⟩ := Option.bind_eq_some_iff.mp h
  exact ⟨hne, isNode_eq_false.mp (by simpa using hnode), target, htarget, (Option.some.inj heq).symm⟩

lemma WellFormed.addNode (h : WellFormed dag) (hadd : addNode dag sourceId sinkId d metadata = some dag') :
    WellFormed dag' := by
  obtain ⟨hne, hnone, target, htarget, heq⟩ := addNode_cases hadd
  have hlookup : ∀ z, dag'.sinks.lookup z =
      if z = sourceId then some (.edge sinkId d (target.info.1 + 1, metadata)) else dag.sinks.lookup z := by
    intro z
    rw [heq, SortedMap.lookup_insert]
  have hsources : ∀ z, dag'.sourcesOf z = if z = sourceId then .empty else
      if z = sinkId then (dag.sourcesOf sinkId).add sourceId else dag.sourcesOf z := by
    intro z
    rw [sourcesOf_insert dag' (by rw [heq])]
    split_ifs with h1 h2
    · rfl
    · rw [SortedMap.lookup_insert, if_pos h2]
      rfl
    · rw [SortedMap.lookup_insert, if_neg h2]
      rfl
  -- the new node has no edge and leads to no other one before
  have hnoEdge : dag.edge sourceId = none := edge_of_lookup_eq_none hnone
  have hnoSource : ∀ w, w ∉ dag.sourcesOf sourceId := by
    intro w hw
    have hnode := h.isNode_target ((h.sources _ _).mp hw)
    rw [isNode_eq_false.mpr hnone] at hnode
    cases hnode
  have hhangs : Hangs dag dag' none sourceId sinkId := by
    refine ⟨by rw [heq], .inr (isNode_eq_false.mpr hnone), by simp, by simp, by simp, isNode_of_lookup htarget,
      edge_of_lookup (by rw [hlookup, if_pos rfl]), ?_, ?_⟩
    · intro z hz
      rw [hlookup, if_neg hz, if_neg (by simp)]
    · intro z w
      have hother : w ∈ dag.sourcesOf z → w ≠ sourceId := by
        rintro hw rfl
        rw [h.sources, hnoEdge] at hw
        cases hw
      rw [hsources]
      split_ifs with h1 h2
      · simp [h1, hnoSource, hne]
      · rw [OrdSet.mem_add, ← h2]
        simp only [and_true, ne_eq, reduceCtorEq, not_false_eq_true, true_and]
        tauto
      · simp only [h2, and_false, false_or, ne_eq, reduceCtorEq, not_false_eq_true, true_and]
        tauto
  exact hhangs.wellFormed h

end AddNode

section UpdateLeafSource

variable {id : ID} {f : D → M → Option (ID × D × M)}

lemma updateLeafSource_cases (h : updateLeafSource dag id f = some dag') :
    ∃ sinkId diff counter metadata newId diff2 metadata2 siblings,
      dag.sinks.lookup id = some (.edge sinkId diff (counter, metadata)) ∧ (∀ y, y ∉ dag.sourcesOf id) ∧
      f diff metadata = some (newId, diff2, metadata2) ∧ dag.sources.lookup sinkId = some siblings ∧
      dag' = {
        sinks := (dag.sinks.erase id).insert newId (.edge sinkId diff2 (counter, metadata2))
        sink := dag.sink
        sources := (dag.sources.erase id).insert sinkId ((siblings.erase id).add newId) } := by
  unfold updateLeafSource at h
  split at h
  · rename_i sinkId diff counter metadata hlookup
    split_ifs at h with hsink hempty
    obtain ⟨⟨newId, diff2, metadata2⟩, hf, h⟩ := Option.bind_eq_some_iff.mp h
    obtain ⟨siblings, hsiblings, heq⟩ := Option.bind_eq_some_iff.mp h
    refine ⟨sinkId, diff, counter, metadata, newId, diff2, metadata2, siblings, hlookup, ?_, hf, hsiblings,
      (Option.some.inj heq).symm⟩
    exact OrdSet.isEmpty_iff.mp (by simpa using hempty)
  · cases h

/-- The renamed node keeps its edge. It must not be given the identifier of another node. -/
lemma WellFormed.updateLeafSource (h : WellFormed dag) (hupdate : updateLeafSource dag id f = some dag')
    (hfresh : ∀ y diff info newId diff2 metadata2, dag.sinks.lookup id = some (.edge y diff info) →
      f diff info.2 = some (newId, diff2, metadata2) → newId = id ∨ isNode dag newId = false) :
    WellFormed dag' := by
  obtain ⟨sinkId, diff, counter, metadata, newId, diff2, metadata2, siblings, hid, hleaf, hf, hsiblings, heq⟩ :=
    updateLeafSource_cases hupdate
  have hedgeId : dag.edge id = some sinkId := edge_of_lookup hid
  have hlookup : ∀ z, dag'.sinks.lookup z = if z = newId then some (.edge sinkId diff2 (counter, metadata2)) else
      if z = id then none else dag.sinks.lookup z := by
    intro z
    rw [heq, SortedMap.lookup_insert, SortedMap.lookup_erase]
  have hsources : ∀ z, dag'.sourcesOf z = if z = sinkId then ((dag.sourcesOf sinkId).erase id).add newId else
      if z = id then .empty else dag.sourcesOf z := by
    intro z
    rw [sourcesOf_insert dag' (by rw [heq])]
    split_ifs with h1 h2
    · rw [Dag.sourcesOf, hsiblings]
      rfl
    · rw [SortedMap.lookup_erase, if_pos h2]
      rfl
    · rw [SortedMap.lookup_erase, if_neg h2]
      rfl
  have hfreshId : newId = id ∨ isNode dag newId = false := hfresh _ _ _ _ _ _ hid hf
  have hhangs : Hangs dag dag' (some id) newId sinkId := by
    refine ⟨by rw [heq], ?_, ?_, ?_, ?_, h.isNode_target hedgeId, edge_of_lookup (by rw [hlookup, if_pos rfl]), ?_, ?_⟩
    · exact hfreshId.imp (fun heq => by rw [heq]) fun hnot => hnot
    · intro y z hz hyz
      rw [← Option.some.inj hz] at hyz
      exact hleaf y ((h.sources id y).mpr hyz)
    · exact fun heq => h.ne_sink hedgeId (Option.some.inj heq)
    · intro heq
      rw [Option.some.inj heq] at hedgeId
      exact hleaf _ ((h.sources _ _).mpr (Option.some.inj heq ▸ hedgeId))
    · intro z hz
      rw [hlookup, if_neg hz]
      simp only [Option.some.injEq, eq_comm]
    · intro z w
      have hother : w ∈ dag.sourcesOf z → w ≠ id → w ≠ newId := by
        rintro hw hwid rfl
        obtain hwn | hnot := hfreshId
        · exact hwid hwn
        · rw [isNode_source ((h.sources _ _).mp hw)] at hnot
          cases hnot
      have hone : w ∈ dag.sourcesOf z → w = id → z = sinkId := by
        rintro hw rfl
        rw [h.sources, hedgeId, Option.some.injEq] at hw
        exact hw.symm
      rw [hsources]
      simp only [ne_eq, Option.some.injEq, eq_comm (a := id)]
      split_ifs with h1 h2
      · rw [OrdSet.mem_add, OrdSet.mem_erase, h1] at *
        tauto
      · have := hleaf w
        rw [← h2] at this
        simp only [OrdSet.not_mem_empty, false_iff]
        tauto
      · tauto
  exact hhangs.wellFormed h

end UpdateLeafSource

section UpdateSink

variable {ord : Order ID} {id newId : ID} {f : E → M → Option (ID × E × M)} {sinks : SortedMap ID (Node ID E D M)}

lemma foldlM_redirect (newId : ID) {l : List ID} (hnodup : l.Nodup)
    (hl : ∀ x ∈ l, ∃ d info, sinks.lookup x = some (.edge id d info)) :
    ∃ sinks', l.foldlM (redirect id newId) sinks = some sinks' ∧
      (∀ x ∈ l, ∀ y d info, sinks.lookup x = some (.edge y d info) → sinks'.lookup x = some (.edge newId d info)) ∧
      ∀ x ∉ l, sinks'.lookup x = sinks.lookup x := by
  induction l generalizing sinks with
  | nil => exact ⟨sinks, rfl, by simp, fun _ _ => rfl⟩
  | cons x l ih =>
    rw [List.nodup_cons] at hnodup
    obtain ⟨d, info, hx⟩ := hl x (by simp)
    have hother : ∀ y ∈ l, (sinks.insert x (.edge newId d info)).lookup y = sinks.lookup y := by
      intro y hy
      rw [SortedMap.lookup_insert, if_neg]
      rintro rfl
      exact hnodup.1 hy
    have hrest : ∀ y ∈ l, ∃ d' info', (sinks.insert x (.edge newId d info)).lookup y = some (.edge id d' info') := by
      intro y hy
      rw [hother y hy]
      exact hl y (by simp [hy])
    obtain ⟨sinks', hfold, hin, hout⟩ := ih hnodup.2 hrest
    refine ⟨sinks', ?_, ?_, ?_⟩
    · rw [List.foldlM_cons, redirect, hx]
      simpa using hfold
    · intro y hy z d' info' hlookup
      rcases List.mem_cons.mp hy with rfl | hy
      · rw [hx, Option.some.injEq, Node.edge.injEq] at hlookup
        obtain ⟨-, rfl, rfl⟩ := hlookup
        rw [hout y hnodup.1, SortedMap.lookup_insert, if_pos rfl]
      · exact hin y hy z d' info' (by rw [hother y hy]; exact hlookup)
    · intro y hy
      rw [List.mem_cons, not_or] at hy
      rw [hout y hy.2, SortedMap.lookup_insert, if_neg hy.1]

/-- What `updateSink` does. The sink is not given the identifier of another node. -/
structure Renames (dag dag' : Dag ID E D M) (newId : ID) (e2 : E) (info2 : Nat × M) : Prop where
  fresh : newId = dag.sink ∨ isNode dag newId = false
  sink : dag'.sink = newId
  root : dag'.sinks.lookup newId = some (.sink e2 info2)
  kept : ∀ x y d info, dag.sinks.lookup x = some (.edge y d info) →
    dag'.sinks.lookup x = some (.edge (if y = dag.sink then newId else y) d info)
  nodes : ∀ x, isNode dag' x = true → x = newId ∨ ∃ y d info, dag.sinks.lookup x = some (.edge y d info)
  sources : dag'.sources = (dag.sources.erase dag.sink).insert newId (dag.sourcesOf dag.sink)

variable (ord) in
lemma WellFormed.renames (h : WellFormed dag) {counter : Nat} {metadata metadata2 : M} {e2 : E}
    (hsink : dag.sinks.lookup dag.sink = some (.sink e (counter, metadata)))
    (hf : f e metadata = some (newId, e2, metadata2)) (hfresh : newId = dag.sink ∨ isNode dag newId = false) :
    ∃ dag', updateSink ord dag dag.sink f = some dag' ∧ Renames dag dag' newId e2 (counter, metadata2) := by
  have hnew : ∀ {z}, isNode dag z = true → z ≠ dag.sink → z ≠ newId := by
    rintro z hz hzs rfl
    rcases hfresh with heq | hnot
    · exact hzs heq
    · rw [hnot] at hz
      cases hz
  set sinks3 := (dag.sinks.erase dag.sink).insert newId (.sink e2 (counter, metadata2)) with hsinks3
  have hlookup3 : ∀ z, sinks3.lookup z = if z = newId then some (.sink e2 (counter, metadata2)) else
      if z = dag.sink then none else dag.sinks.lookup z := by
    intro z
    rw [hsinks3, SortedMap.lookup_insert, SortedMap.lookup_erase]
  have hkept3 : ∀ {z y d info}, dag.sinks.lookup z = some (.edge y d info) → sinks3.lookup z = some (.edge y d info) := by
    intro z y d info hz
    have hzs := h.ne_sink (edge_of_lookup hz)
    rw [hlookup3, if_neg (hnew (isNode_of_lookup hz) hzs), if_neg hzs, hz]
  set l := ord.order (dag.sourcesOf dag.sink).elems with hl
  have hmem : ∀ z, z ∈ l ↔ dag.edge z = some dag.sink := by
    intro z
    rw [hl, (ord.perm _).mem_iff, OrdSet.mem_elems, h.sources]
  have hedges : ∀ z ∈ l, ∃ d info, sinks3.lookup z = some (.edge dag.sink d info) := by
    intro z hz
    obtain ⟨d, info, hz⟩ := edge_eq_some.mp ((hmem z).mp hz)
    exact ⟨d, info, hkept3 hz⟩
  obtain ⟨sinks4, hfold, hin, hout⟩ := foldlM_redirect newId ((ord.perm _).nodup_iff.mpr (OrdSet.nodup _)) hedges
  refine ⟨{ sinks := sinks4, sink := newId, sources := (dag.sources.erase dag.sink).insert newId (dag.sourcesOf dag.sink) },
    ?_, hfresh, rfl, ?_, ?_, ?_, rfl⟩
  · rw [updateSink, if_pos rfl]
    simp only [hsink, hf, Option.bind_eq_bind, Option.bind_some]
    rw [hfold]
    rfl
  · have hnot : newId ∉ l := by
      intro hmem'
      have hedge := (hmem newId).mp hmem'
      exact hnew (isNode_source hedge) (h.ne_sink hedge) rfl
    rw [hout newId hnot, hlookup3, if_pos rfl]
  · intro z y d info hz
    by_cases hy : y = dag.sink
    · rw [if_pos hy]
      exact hin z ((hmem z).mpr (hy ▸ edge_of_lookup hz)) y d info (hkept3 hz)
    · rw [if_neg hy, hout z fun hmem' => hy ?_, hkept3 hz]
      rw [hmem, edge_of_lookup hz, Option.some.injEq] at hmem'
      exact hmem'
  · intro z hz
    by_cases hzn : z = newId
    · exact .inl hzn
    · right
      by_cases hzl : z ∈ l
      · obtain ⟨d, info, hz⟩ := edge_eq_some.mp ((hmem z).mp hzl)
        exact ⟨_, d, info, hz⟩
      · obtain ⟨n, hn⟩ := isNode_iff.mp hz
        rw [hout z hzl, hlookup3, if_neg hzn] at hn
        split_ifs at hn with hzs
        exact h.exists_edge (isNode_of_lookup hn) hzs

lemma Renames.edge {e2 : E} {info2 : Nat × M} (hr : Renames dag dag' newId e2 info2) (z : ID) :
    dag'.edge z = (dag.edge z).map fun y => if y = dag.sink then newId else y := by
  cases hz : dag.edge z with
  | some y =>
    obtain ⟨d, info, hlookup⟩ := edge_eq_some.mp hz
    exact edge_of_lookup (hr.kept z y d info hlookup)
  | none =>
    cases hz' : dag'.edge z with
    | none => rfl
    | some y =>
      obtain ⟨d, info, hlookup⟩ := edge_eq_some.mp hz'
      rcases hr.nodes z (isNode_of_lookup hlookup) with rfl | ⟨y', d', info', hold⟩
      · rw [hr.root] at hlookup
        cases hlookup
      · rw [edge_of_lookup hold] at hz
        cases hz

lemma Renames.wellFormed {e2 : E} {info2 : Nat × M} (hr : Renames dag dag' newId e2 info2) (h : WellFormed dag) :
    WellFormed dag' := by
  have hnotNode : ∀ {z}, isNode dag z = true → z ≠ dag.sink → z ≠ newId := by
    rintro z hz hzs rfl
    rcases hr.fresh with heq | hnot
    · exact hzs heq
    · rw [hnot] at hz
      cases hz
  refine ⟨⟨e2, info2, hr.sink ▸ hr.root⟩, fun z e info hz => ?_, fun z hz => ?_, fun z w => ?_⟩
  · rcases hr.nodes z (isNode_of_lookup hz) with rfl | ⟨y, d, info', hold⟩
    · exact hr.sink.symm
    · rw [hr.kept z y d info' hold] at hz
      cases hz
  · rcases hr.nodes z hz with rfl | ⟨y, d, info, hold⟩
    · exact ⟨0, hr.sink ▸ .root⟩
    · obtain ⟨n, hw⟩ := h.walk z (isNode_of_lookup hold)
      have hzs : z ≠ dag.sink := h.ne_sink (edge_of_lookup hold)
      have hstep : ∀ a b, True → dag.edge a = some b → True ∧
          dag'.edge (if a = dag.sink then newId else a) = some (if b = dag.sink then newId else b) := by
        intro a b _ hab
        rw [if_neg (h.ne_sink hab), hr.edge, hab]
        exact ⟨trivial, rfl⟩
      have hw' := hw.transfer hstep trivial
      rw [if_pos rfl, if_neg hzs] at hw'
      exact ⟨n, hr.sink ▸ hw'⟩
  · have hsources : dag'.sourcesOf z = if z = newId then dag.sourcesOf dag.sink else
        if z = dag.sink then .empty else dag.sourcesOf z := by
      rw [sourcesOf_insert dag' hr.sources]
      split_ifs with h1 h2
      · rfl
      · rw [SortedMap.lookup_erase, if_pos h2]
        rfl
      · rw [SortedMap.lookup_erase, if_neg h2]
        rfl
    rw [hsources, hr.edge, Option.map_eq_some_iff]
    split_ifs with h1 h2
    · rw [h.sources]
      constructor
      · exact fun hw => ⟨dag.sink, hw, by rw [if_pos rfl, h1]⟩
      · rintro ⟨y, hy, hyz⟩
        split_ifs at hyz with hys
        · rw [hy, hys]
        · exact absurd (hyz.trans h1) (hnotNode (h.isNode_target hy) hys)
    · simp only [OrdSet.not_mem_empty, false_iff]
      rintro ⟨y, hy, hyz⟩
      split_ifs at hyz with hys
      · exact h1 hyz.symm
      · exact hys (hyz.trans h2)
    · rw [h.sources]
      constructor
      · exact fun hw => ⟨z, hw, if_neg h2⟩
      · rintro ⟨y, hy, hyz⟩
        split_ifs at hyz with hys
        · exact absurd hyz.symm h1
        · rw [hy, hyz]

lemma updateSink_cases (h : updateSink ord dag id f = some dag') :
    id = dag.sink ∧ ∃ e counter metadata newId e2 metadata2,
      dag.sinks.lookup dag.sink = some (.sink e (counter, metadata)) ∧ f e metadata = some (newId, e2, metadata2) := by
  unfold updateSink at h
  split_ifs at h with hid
  subst hid
  split at h
  · rename_i e counter metadata hlookup
    obtain ⟨⟨newId, e2, metadata2⟩, hf, -⟩ := Option.bind_eq_some_iff.mp h
    exact ⟨rfl, e, counter, metadata, newId, e2, metadata2, hlookup, hf⟩
  · cases h

lemma WellFormed.updateSink (h : WellFormed dag) (hupdate : updateSink ord dag id f = some dag')
    (hfresh : ∀ e info newId e2 metadata2, dag.sinks.lookup id = some (.sink e info) →
      f e info.2 = some (newId, e2, metadata2) → newId = id ∨ isNode dag newId = false) :
    WellFormed dag' := by
  obtain ⟨rfl, e, counter, metadata, newId, e2, metadata2, hsink, hf⟩ := updateSink_cases hupdate
  obtain ⟨dag2, hupdate2, hr⟩ := h.renames ord hsink hf (hfresh _ _ _ _ _ hsink hf)
  rw [hupdate, Option.some.injEq] at hupdate2
  rw [hupdate2]
  exact hr.wellFormed h

end UpdateSink

end Arweave.DiffDag

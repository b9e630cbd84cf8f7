import Arweave.DiffDag.Filter

/-!
# Moving the sink

Where the reverse of a diff undoes the diff, turning an edge to the sink around keeps the entity of
every node, and so does a move of the sink, which turns around the edges on the way of a node. What
the diffs undo may be a relation that is coarser than equality.
-/

namespace Arweave.DiffDag

open Lib

variable {ID E D M : Type} [LinearOrder ID] {dag dag' dag1 : Dag ID E D M} {x y z : ID} {d : D} {e e' v : E}
  {info : Nat × M}

/-- The diffs in question can be applied to the entities in question, respect the relation
between entities and are undone by their reverse. -/
structure Undoes (R : E → E → Prop) (Ok : D → Prop) (apply : D → E → Option E) (reverse : D → E → D) : Prop where
  symm : ∀ {e e'}, R e e' → R e' e
  trans : ∀ {e e' e''}, R e e' → R e' e'' → R e e''
  congr : ∀ {d e e'}, Ok d → R e e' → ∃ v v', apply d e = some v ∧ apply d e' = some v' ∧ R v v'
  reverseOk : ∀ {d e}, Ok d → R e e → Ok (reverse d e)
  undo : ∀ {d e e'}, Ok d → R e e → apply d e = some e' → ∃ e'', apply (reverse d e) e' = some e'' ∧ R e'' e

variable {R : E → E → Prop} {Ok : D → Prop} {apply : D → E → Option E} {reverse : D → E → D}

lemma Undoes.refl_left (U : Undoes R Ok apply reverse) (h : R e e') : R e e := U.trans h (U.symm h)

/-- The entity of a node. -/
inductive Value (apply : D → E → Option E) (dag : Dag ID E D M) : ID → E → Prop
  | sink {e : E} {info : Nat × M} (hsink : dag.sinks.lookup dag.sink = some (.sink e info)) : Value apply dag dag.sink e
  | edge {x y : ID} {d : D} {info : Nat × M} {e e' : E} (hedge : dag.sinks.lookup x = some (.edge y d info))
      (hvalue : Value apply dag y e) (happly : apply d e = some e') : Value apply dag x e'

lemma Value.of_sink (hsink : dag.sink = x) (h : dag.sinks.lookup x = some (.sink e info)) : Value apply dag x e :=
  hsink ▸ .sink (hsink.symm ▸ h)

lemma Value.unique (h : Value apply dag x e) (h' : Value apply dag x e') : e = e' := by
  induction h generalizing e' with
  | sink hsink =>
    cases h' with
    | sink hsink' =>
      rw [hsink, Option.some.injEq, Node.sink.injEq] at hsink'
      exact hsink'.1
    | edge hedge _ _ =>
      rw [hsink] at hedge
      cases hedge
  | edge hedge _ happly ih =>
    cases h' with
    | sink hsink' =>
      rw [hedge] at hsink'
      cases hsink'
    | edge hedge' hvalue' happly' =>
      rw [hedge, Option.some.injEq, Node.edge.injEq] at hedge'
      obtain ⟨rfl, rfl, -⟩ := hedge'
      rw [ih hvalue', happly', Option.some.injEq] at happly
      exact happly.symm

lemma Value.reconstructFrom {n fuel : Nat} {diffs : List D} (h : WellFormed dag) (hv : Value apply dag x e)
    (hwalk : Walk dag.edge dag.sink x n) (hfuel : n < fuel) :
    reconstructFrom apply dag fuel x diffs = diffs.foldlM (fun e d => apply d e) e := by
  induction hv generalizing n fuel diffs with
  | sink hsink =>
    obtain ⟨fuel, rfl⟩ : ∃ k, fuel = k + 1 := ⟨fuel - 1, by omega⟩
    rw [DiffDag.reconstructFrom, hsink]
    simp
  | edge hedge hvalue happly ih =>
    obtain ⟨fuel, rfl⟩ : ∃ k, fuel = k + 1 := ⟨fuel - 1, by omega⟩
    rw [DiffDag.reconstructFrom, hedge]
    cases hwalk with
    | root =>
      have := h.edge_sink
      rw [edge_of_lookup hedge] at this
      cases this
    | step hnext hwalk =>
      rw [edge_of_lookup hedge, Option.some.injEq] at hnext
      subst hnext
      dsimp only
      rw [ih hwalk (by omega), List.foldlM_cons, happly, Option.bind_eq_bind, Option.bind_some]

lemma Value.isNode (hv : Value apply dag x e) : isNode dag x = true := by
  cases hv with
  | sink hsink => exact isNode_of_lookup hsink
  | edge hedge _ _ => exact isNode_of_lookup hedge

lemma Value.reconstruct (h : WellFormed dag) (hv : Value apply dag x e) : reconstruct apply dag x = some (some e) := by
  obtain ⟨n, hwalk⟩ := h.walk x hv.isNode
  have hle := h.walk_length_le hwalk
  rw [DiffDag.reconstruct, if_pos hv.isNode, hv.reconstructFrom h hwalk (by omega)]
  rfl

/-- The diffs and the entity are those that can be undone. -/
structure Valued (R : E → E → Prop) (Ok : D → Prop) (dag : Dag ID E D M) : Prop where
  diff : ∀ x y d info, dag.sinks.lookup x = some (.edge y d info) → Ok d
  entity : ∀ e info, dag.sinks.lookup dag.sink = some (.sink e info) → R e e

lemma Valued.exists_value (U : Undoes R Ok apply reverse) (h : WellFormed dag) (hd : Valued R Ok dag)
    (hx : isNode dag x = true) : ∃ v, Value apply dag x v ∧ R v v := by
  obtain ⟨n, hwalk⟩ := h.walk x hx
  induction hwalk with
  | root =>
    obtain ⟨e, info, hsink⟩ := h.sink
    exact ⟨e, .sink hsink, hd.entity e info hsink⟩
  | step hnext _ ih =>
    obtain ⟨v, hv, hR⟩ := ih (h.isNode_target hnext)
    obtain ⟨d, info, hedge⟩ := edge_eq_some.mp hnext
    obtain ⟨w, w', hw, hw', hRw⟩ := U.congr (hd.diff _ _ _ _ hedge) hR
    exact ⟨w, .edge hedge hv hw, U.refl_left hRw⟩

section Turning

/-- The edge of `x` to the sink has been turned around. -/
structure Turns (reverse : D → E → D) (dag dag' : Dag ID E D M) (x : ID) (d : D) (e e' : E)
    (info infoX : Nat × M) : Prop where
  old : dag.sinks.lookup dag.sink = some (.sink e info)
  edge : dag.sinks.lookup x = some (.edge dag.sink d infoX)
  sink : dag'.sink = x
  root : dag'.sinks.lookup x = some (.sink e' infoX)
  turned : dag'.sinks.lookup dag.sink = some (.edge x (reverse d e) info)
  other : ∀ z, z ≠ x → z ≠ dag.sink → dag'.sinks.lookup z = dag.sinks.lookup z
  sources : ∀ z, dag'.sourcesOf z = if z = dag.sink then (dag.sourcesOf z).erase x else
    if z = x then (dag.sourcesOf z).add dag.sink else dag.sourcesOf z

variable {infoX : Nat × M}

lemma Turns.wellFormed (ht : Turns reverse dag dag' x d e e' info infoX) (h : WellFormed dag) : WellFormed dag' := by
  have hedgeX : dag.edge x = some dag.sink := edge_of_lookup ht.edge
  have hne : x ≠ dag.sink := h.ne_sink hedgeX
  have hedge : ∀ z, z ≠ x → z ≠ dag.sink → dag'.edge z = dag.edge z := fun z h1 h2 => by
    rw [Dag.edge, ht.other z h1 h2, Dag.edge]
  have hedgeX' : dag'.edge x = none := by rw [Dag.edge, ht.root]
  have hedgeS' : dag'.edge dag.sink = some x := edge_of_lookup ht.turned
  refine ⟨⟨e', infoX, ht.sink ▸ ht.root⟩, fun z e info hz => ?_, fun z hz => ?_, fun z w => ?_⟩
  · by_cases hzx : z = x
    · rw [hzx, ht.sink]
    · by_cases hzs : z = dag.sink
      · rw [hzs, ht.turned] at hz
        cases hz
      · rw [ht.other z hzx hzs] at hz
        exact absurd (h.only z e info hz) hzs
  · have hnode : isNode dag z = true := by
      by_cases hzx : z = x
      · exact hzx ▸ isNode_of_lookup ht.edge
      · by_cases hzs : z = dag.sink
        · exact hzs ▸ isNode_of_lookup ht.old
        · rwa [isNode, ht.other z hzx hzs] at hz
    obtain ⟨n, hwalk⟩ := h.walk z hnode
    rw [ht.sink]
    exact hwalk.turn hedgeS' hedge
  · rw [ht.sources]
    by_cases hwx : w = x
    · subst hwx
      rw [hedgeX']
      split_ifs with h1 h2
      · simp
      · simp only [OrdSet.mem_add, h.sources, hedgeX, Option.some.injEq, iff_false, not_or]
        exact ⟨hne, Ne.symm h1⟩
      · simp only [h.sources, hedgeX, Option.some.injEq, iff_false]
        exact Ne.symm h1
    · by_cases hws : w = dag.sink
      · subst hws
        rw [hedgeS', Option.some.injEq]
        split_ifs with h1 h2
        · simp only [OrdSet.mem_erase, h.sources, h.edge_sink, reduceCtorEq, and_false, false_iff]
          exact fun hxz => hne (hxz.trans h1)
        · simp [h2]
        · simp only [h.sources, h.edge_sink, reduceCtorEq, false_iff]
          exact Ne.symm h2
      · rw [hedge w hwx hws]
        split_ifs with h1 h2
        · simp [hwx, h.sources]
        · simp [hws, h.sources]
        · exact h.sources z w

lemma Turns.value (U : Undoes R Ok apply reverse) (ht : Turns reverse dag dag' x d e e' info infoX) (h : WellFormed dag)
    (hd : Valued R Ok dag) (happly : apply d e = some e') (hv : Value apply dag z v) :
    ∃ v', Value apply dag' z v' ∧ R v v' := by
  have hok : Ok d := hd.diff x _ d _ ht.edge
  have hRe : R e e := hd.entity e info ht.old
  have hx : Value apply dag' x e' := .of_sink ht.sink ht.root
  have hRe' : R e' e' := by
    obtain ⟨w, w', hw, -, hRw⟩ := U.congr hok hRe
    rw [happly, Option.some.injEq] at hw
    exact hw ▸ U.refl_left hRw
  induction hv with
  | sink hsink =>
    rw [ht.old, Option.some.injEq, Node.sink.injEq] at hsink
    obtain ⟨e'', hundo, hR⟩ := U.undo hok hRe happly
    exact ⟨e'', .edge ht.turned hx hundo, hsink.1 ▸ U.symm hR⟩
  | @edge z y d1 info1 w w' hedge hvalue hw ih =>
    by_cases hzx : z = x
    · subst hzx
      rw [ht.edge, Option.some.injEq, Node.edge.injEq] at hedge
      obtain ⟨rfl, rfl, -⟩ := hedge
      rw [hvalue.unique (.sink ht.old), happly, Option.some.injEq] at hw
      exact ⟨e', hx, hw ▸ hRe'⟩
    · obtain ⟨u, hu, hR⟩ := ih
      obtain ⟨a, b, ha, hb, hRab⟩ := U.congr (hd.diff z y d1 info1 hedge) hR
      rw [hw, Option.some.injEq] at ha
      have hkept : dag'.sinks.lookup z = some (.edge y d1 info1) := by
        rw [ht.other z hzx (h.ne_sink (edge_of_lookup hedge)), hedge]
      exact ⟨b, .edge hkept hu hb, ha ▸ hRab⟩

lemma Turns.valued (U : Undoes R Ok apply reverse) (ht : Turns reverse dag dag' x d e e' info infoX)
    (hd : Valued R Ok dag) (happly : apply d e = some e') : Valued R Ok dag' := by
  have hok : Ok d := hd.diff x _ d _ ht.edge
  have hRe : R e e := hd.entity e info ht.old
  refine ⟨fun z y d1 info1 hz => ?_, fun e1 info1 hsink => ?_⟩
  · by_cases hzx : z = x
    · rw [hzx, ht.root] at hz
      cases hz
    · by_cases hzs : z = dag.sink
      · rw [hzs, ht.turned, Option.some.injEq, Node.edge.injEq] at hz
        exact hz.2.1 ▸ U.reverseOk hok hRe
      · rw [ht.other z hzx hzs] at hz
        exact hd.diff z y d1 info1 hz
  · rw [ht.sink, ht.root, Option.some.injEq, Node.sink.injEq] at hsink
    obtain ⟨w, w', hw, -, hRw⟩ := U.congr hok hRe
    rw [happly, Option.some.injEq] at hw
    exact hsink.1 ▸ hw ▸ U.refl_left hRw

end Turning

section Moving

/-- The sink has moved to `x`, and only nodes on the way of `x` have changed. -/
structure Moved (R : E → E → Prop) (Ok : D → Prop) (apply : D → E → Option E) (dag dag' : Dag ID E D M) (x : ID) :
    Prop where
  wellFormed : WellFormed dag'
  valued : Valued R Ok dag'
  sink : dag'.sink = x
  off : ∀ z, ¬ Below dag z x → dag'.sinks.lookup z = dag.sinks.lookup z
  info : ∀ z, (dag'.sinks.lookup z).map Node.info = (dag.sinks.lookup z).map Node.info
  value : ∀ z v, Value apply dag z v → ∃ v', Value apply dag' z v' ∧ R v v'

lemma Moved.refl (U : Undoes R Ok apply reverse) (h : WellFormed dag) (hd : Valued R Ok dag) :
    Moved R Ok apply dag dag dag.sink := by
  refine ⟨h, hd, rfl, fun _ _ => rfl, fun _ => rfl, fun z v hv => ⟨v, hv, ?_⟩⟩
  obtain ⟨w, hw, hR⟩ := hd.exists_value U h hv.isNode
  rwa [hv.unique hw]

variable {infoX : Nat × M}

lemma Turns.map_info (ht : Turns reverse dag dag' x d e e' info infoX) (z : ID) :
    (dag'.sinks.lookup z).map Node.info = (dag.sinks.lookup z).map Node.info := by
  by_cases hzx : z = x
  · rw [hzx, ht.root, ht.edge]
    rfl
  · by_cases hzs : z = dag.sink
    · rw [hzs, ht.turned, ht.old]
      rfl
    · rw [ht.other z hzx hzs]

lemma Moved.turn (U : Undoes R Ok apply reverse) (hm : Moved R Ok apply dag dag1 y)
    (hx : dag.sinks.lookup x = some (.edge y d infoX)) (ht : Turns reverse dag1 dag' x d e e' info infoX)
    (happly : apply d e = some e') : Moved R Ok apply dag dag' x := by
  have hedge : dag.edge x = some y := edge_of_lookup hx
  refine ⟨ht.wellFormed hm.wellFormed, ht.valued U hm.valued happly, ht.sink, fun z hz => ?_, fun z => ?_,
    fun z v hv => ?_⟩
  · have hzx : z ≠ x := by
      rintro rfl
      exact hz .refl
    have hzy : z ≠ dag1.sink := by
      rw [hm.sink]
      rintro rfl
      exact hz (.single hedge)
    rw [ht.other z hzx hzy]
    exact hm.off z fun hbelow => hz (Relation.ReflTransGen.head hedge hbelow)
  · rw [ht.map_info, hm.info]
  · obtain ⟨v1, hv1, hR1⟩ := hm.value z v hv
    obtain ⟨v2, hv2, hR2⟩ := ht.value U hm.wellFormed hm.valued happly hv1
    exact ⟨v2, hv2, U.trans hR1 hR2⟩

/-- The DAG of an intermediate state of a move. -/
def settle (acc : ID × E × (Nat × M) × Dag ID E D M) : Dag ID E D M :=
  { acc.2.2.2 with sinks := acc.2.2.2.sinks.insert acc.1 (.sink acc.2.1 acc.2.2.1) }

variable (reverse) in
lemma turnEdge_spec {acc : ID × E × (Nat × M) × Dag ID E D M} (h : WellFormed (settle acc))
    (hsink : (settle acc).sink = acc.1) (hx : (settle acc).sinks.lookup x = some (.edge acc.1 d infoX))
    (happly : apply d acc.2.1 = some e') :
    ∃ acc', turnEdge apply reverse acc (x, d, infoX) = some acc' ∧ (settle acc').sink = acc'.1 ∧
      Turns reverse (settle acc) (settle acc') x d acc.2.1 e' acc.2.2.1 infoX := by
  obtain ⟨s, e, info, dag0⟩ := acc
  dsimp only at hx happly hsink
  have hedge : (settle (s, e, info, dag0)).edge x = some s := edge_of_lookup hx
  have hne : x ≠ s := hsink ▸ h.ne_sink hedge
  obtain ⟨set, hset⟩ : ∃ set, dag0.sources.lookup s = some set := by
    -- the node is among the sources of the sink
    have hmem : x ∈ (dag0.sources.lookup s).getD .empty := (h.sources s x).mpr hedge
    cases hs : dag0.sources.lookup s with
    | none =>
      rw [hs] at hmem
      exact absurd hmem OrdSet.not_mem_empty
    | some set => exact ⟨set, rfl⟩
  refine ⟨(x, e', infoX, {
    sinks := dag0.sinks.insert s (.edge x (reverse d e) info)
    sink := x
    sources := (dag0.sources.insert x ((dag0.sourcesOf x).add s)).insert s (set.erase x) }), ?_, rfl, ?_⟩
  · simp only [turnEdge, hset, happly, Option.bind_eq_bind, Option.bind_some]
  · have hlookup : ∀ z, (settle (s, e, info, dag0)).sinks.lookup z =
        if z = s then some (.sink e info) else dag0.sinks.lookup z := fun z => SortedMap.lookup_insert
    refine ⟨?_, ?_, rfl, ?_, ?_, fun z hzx hzs => ?_, fun z => ?_⟩
    · rw [hlookup, hsink]
      exact if_pos rfl
    · rw [hsink]
      exact hx
    · rw [settle, SortedMap.lookup_insert, if_pos rfl]
    · rw [settle, SortedMap.lookup_insert, hsink, if_neg (Ne.symm hne), SortedMap.lookup_insert]
      exact if_pos rfl
    · rw [hsink] at hzs
      rw [settle, SortedMap.lookup_insert, if_neg hzx, SortedMap.lookup_insert, if_neg hzs, hlookup]
      exact (if_neg hzs).symm
    · rw [hsink, settle, sourcesOf_insert _ rfl]
      have hsame : ∀ w, (settle (s, e, info, dag0)).sourcesOf w = (dag0.sources.lookup w).getD .empty := fun w => rfl
      split_ifs with h1 h2
      · rw [hsame, h1, hset]
        rfl
      · rw [SortedMap.lookup_insert, if_pos h2, hsame, h2]
        rfl
      · rw [SortedMap.lookup_insert, if_neg h2, hsame]

/-- The steps from the sink to a node, as `moveSink` collects them. -/
inductive Trail (dag : Dag ID E D M) : ID → List (ID × D × (Nat × M)) → Prop
  | sink : Trail dag dag.sink []
  | edge {x y : ID} {d : D} {info : Nat × M} {l : List (ID × D × (Nat × M))}
      (hedge : dag.sinks.lookup x = some (.edge y d info)) (htrail : Trail dag y l) : Trail dag x (l ++ [(x, d, info)])

lemma WellFormed.exists_trail (h : WellFormed dag) (hx : isNode dag x = true) : ∃ l, Trail dag x l := by
  obtain ⟨n, hwalk⟩ := h.walk x hx
  induction hwalk with
  | root => exact ⟨[], .sink⟩
  | step hnext _ ih =>
    obtain ⟨l, hl⟩ := ih (h.isNode_target hnext)
    obtain ⟨d, info, hedge⟩ := edge_eq_some.mp hnext
    exact ⟨_, .edge hedge hl⟩

lemma Trail.turn (U : Undoes R Ok apply reverse) (h : WellFormed dag) (hd : Valued R Ok dag)
    (hsink : dag.sinks.lookup dag.sink = some (.sink e info)) {l : List (ID × D × (Nat × M))} (htrail : Trail dag x l) :
    ∃ acc, l.foldlM (turnEdge apply reverse) (dag.sink, e, info, dag) = some acc ∧ acc.1 = x ∧
      Moved R Ok apply dag (settle acc) x := by
  induction htrail with
  | sink =>
    have hsettle : settle (dag.sink, e, info, dag) = dag := by
      rw [settle, SortedMap.insert_of_lookup_eq_some hsink]
    exact ⟨_, rfl, rfl, hsettle.symm ▸ Moved.refl U h hd⟩
  | @edge x y d infoX l hedge _ ih =>
    obtain ⟨acc, hfold, hacc, hm⟩ := ih
    -- the edge of the next node has not changed yet
    have hnot : ¬ Below dag x y := by
      intro hbelow
      obtain ⟨n, hwalk⟩ := h.walk x (isNode_of_lookup hedge)
      exact hwalk.not_transGen_self h.edge_sink (Relation.TransGen.head' (edge_of_lookup hedge) hbelow)
    have hx : (settle acc).sinks.lookup x = some (.edge acc.1 d infoX) := by
      rw [hm.off x hnot, hedge, hacc]
    obtain ⟨e1, info1, hroot⟩ := hm.wellFormed.sink
    have he1 : (settle acc).sinks.lookup (settle acc).sink = some (.sink acc.2.1 acc.2.2.1) := by
      rw [hm.sink, ← hacc, settle, SortedMap.lookup_insert, if_pos rfl]
    obtain ⟨e', _, happly, -, -⟩ := U.congr (hd.diff x y d infoX hedge) (hm.valued.entity _ _ he1)
    obtain ⟨acc', hturn, hsink', ht⟩ := turnEdge_spec reverse hm.wellFormed (hm.sink.trans hacc.symm) hx happly
    refine ⟨acc', ?_, hsink'.symm.trans ht.sink, hm.turn U hedge ht happly⟩
    rw [List.foldlM_append, hfold, Option.bind_eq_bind, Option.bind_some, List.foldlM_cons, hturn]
    rfl

lemma Trail.moveSinkFrom (hsink : dag.sinks.lookup dag.sink = some (.sink e info))
    {l diffs : List (ID × D × (Nat × M))} (htrail : Trail dag x l) {n fuel : Nat} (hwalk : Walk dag.edge dag.sink x n)
    (hfuel : n < fuel) : moveSinkFrom apply reverse dag fuel x diffs =
      ((l ++ diffs).foldlM (turnEdge apply reverse) (dag.sink, e, info, dag)).map settle := by
  induction htrail generalizing n fuel diffs with
  | sink =>
    obtain ⟨fuel, rfl⟩ : ∃ k, fuel = k + 1 := ⟨fuel - 1, by omega⟩
    rw [DiffDag.moveSinkFrom, hsink]
    simp only [if_true, List.nil_append, Option.map_eq_bind]
    rfl
  | @edge x y d infoX l hedge _ ih =>
    obtain ⟨fuel, rfl⟩ : ∃ k, fuel = k + 1 := ⟨fuel - 1, by omega⟩
    rw [DiffDag.moveSinkFrom, hedge]
    cases hwalk with
    | root =>
      rw [hsink] at hedge
      cases hedge
    | step hnext hwalk =>
      rw [edge_of_lookup hedge, Option.some.injEq] at hnext
      subst hnext
      dsimp only
      rw [ih hwalk (by omega), List.append_assoc]
      rfl

lemma WellFormed.moveSink (U : Undoes R Ok apply reverse) (h : WellFormed dag) (hd : Valued R Ok dag)
    (hx : isNode dag x = true) : ∃ dag', moveSink apply reverse dag x = some dag' ∧ Moved R Ok apply dag dag' x := by
  obtain ⟨e, info, hsink⟩ := h.sink
  obtain ⟨l, htrail⟩ := h.exists_trail hx
  obtain ⟨n, hwalk⟩ := h.walk x hx
  have hle := h.walk_length_le hwalk
  obtain ⟨acc, hfold, -, hm⟩ := htrail.turn U h hd hsink
  refine ⟨settle acc, ?_, hm⟩
  rw [DiffDag.moveSink, if_pos hx, htrail.moveSinkFrom hsink hwalk (by omega), List.append_nil, hfold]
  rfl

end Moving

section Keeping

variable {sourceId sinkId newId : ID} {metadata : M} {e2 : E} {info2 : Nat × M} {gone : OrdSet ID}

lemma lookup_addNode (hadd : addNode dag sourceId sinkId d metadata = some dag') {n : Node ID E D M}
    (hx : dag.sinks.lookup x = some n) : dag'.sinks.lookup x = some n := by
  obtain ⟨-, hnone, target, -, rfl⟩ := addNode_cases hadd
  rw [SortedMap.lookup_insert, if_neg, hx]
  rintro rfl
  rw [hnone] at hx
  cases hx

lemma lookup_addNode_self (hadd : addNode dag sourceId sinkId d metadata = some dag') :
    ∃ info, dag'.sinks.lookup sourceId = some (.edge sinkId d info) := by
  obtain ⟨-, -, target, -, rfl⟩ := addNode_cases hadd
  exact ⟨(target.info.1 + 1, metadata), by rw [SortedMap.lookup_insert, if_pos rfl]⟩

lemma isNode_addNode (hadd : addNode dag sourceId sinkId d metadata = some dag') (hx : isNode dag' x = true) :
    x = sourceId ∨ isNode dag x = true := by
  obtain ⟨-, -, target, -, rfl⟩ := addNode_cases hadd
  by_cases hxs : x = sourceId
  · exact .inl hxs
  · rw [isNode, SortedMap.lookup_insert, if_neg hxs] at hx
    exact .inr hx

lemma Value.addNode (hadd : addNode dag sourceId sinkId d metadata = some dag') (hv : Value apply dag z v) :
    Value apply dag' z v := by
  have hsink : dag'.sink = dag.sink := by
    obtain ⟨-, -, target, -, rfl⟩ := addNode_cases hadd
    rfl
  induction hv with
  | sink hlookup =>
    exact .of_sink hsink (lookup_addNode hadd hlookup)
  | edge hedge _ happly ih => exact .edge (lookup_addNode hadd hedge) ih happly

lemma Valued.addNode (hd : Valued R Ok dag) (hadd : addNode dag sourceId sinkId d metadata = some dag') (hok : Ok d)
    (h : WellFormed dag) : Valued R Ok dag' := by
  have hnew := lookup_addNode_self hadd
  have hold : ∀ {z n}, z ≠ sourceId → dag'.sinks.lookup z = some n → dag.sinks.lookup z = some n := by
    intro z n hz hlookup
    obtain ⟨-, -, target, -, rfl⟩ := addNode_cases hadd
    rwa [SortedMap.lookup_insert, if_neg hz] at hlookup
  refine ⟨fun z y d1 info1 hz => ?_, fun e1 info1 hlookup => ?_⟩
  · by_cases hzs : z = sourceId
    · obtain ⟨info, hnew⟩ := hnew
      rw [hzs, hnew, Option.some.injEq, Node.edge.injEq] at hz
      exact hz.2.1 ▸ hok
    · exact hd.diff z y d1 info1 (hold hzs hz)
  · obtain ⟨e, info, hsink⟩ := h.sink
    have hkept := lookup_addNode hadd hsink
    have hsame : dag'.sink = dag.sink := by
      obtain ⟨-, -, target, -, rfl⟩ := addNode_cases hadd
      rfl
    rw [hsame, hkept, Option.some.injEq, Node.sink.injEq] at hlookup
    exact hlookup.1 ▸ hd.entity e info hsink

lemma Renames.value (U : Undoes R Ok apply reverse) (hr : Renames dag dag' dag.sink e2 info2) (hd : Valued R Ok dag)
    (hsink : dag.sinks.lookup dag.sink = some (.sink e info)) (hR : R e e2) (hv : Value apply dag z v) :
    ∃ v', Value apply dag' z v' ∧ R v v' := by
  induction hv with
  | sink hlookup =>
    rw [hsink, Option.some.injEq, Node.sink.injEq] at hlookup
    exact ⟨e2, .of_sink hr.sink hr.root, hlookup.1 ▸ hR⟩
  | @edge z y d1 info1 w w' hedge hvalue hw ih =>
    obtain ⟨u, hu, hRu⟩ := ih
    obtain ⟨a, b, ha, hb, hRab⟩ := U.congr (hd.diff z y d1 info1 hedge) hRu
    rw [hw, Option.some.injEq] at ha
    have hkept := hr.kept z y d1 info1 hedge
    rw [ite_eq_right_iff.mpr fun h => h.symm] at hkept
    exact ⟨b, .edge hkept hu hb, ha ▸ hRab⟩

lemma Renames.valued (hr : Renames dag dag' dag.sink e2 info2) (hd : Valued R Ok dag) (hR : R e2 e2) :
    Valued R Ok dag' := by
  refine ⟨fun z y d1 info1 hz => ?_, fun e1 info1 hlookup => ?_⟩
  · rcases hr.nodes z (isNode_of_lookup hz) with rfl | ⟨y', d', info', hold⟩
    · rw [hr.root] at hz
      cases hz
    · rw [hr.kept z y' d' info' hold, Option.some.injEq, Node.edge.injEq] at hz
      exact hz.2.1 ▸ hd.diff z y' d' info' hold
  · rw [hr.sink, hr.root, Option.some.injEq, Node.sink.injEq] at hlookup
    exact hlookup.1 ▸ hR

lemma Prunes.value (hp : Prunes dag dag' gone) (hz : z ∉ gone) (hv : Value apply dag z v) : Value apply dag' z v := by
  induction hv with
  | @sink e info hlookup =>
    have hkept : dag'.sinks.lookup dag.sink = some (.sink e info) := by
      rw [hp.lookup, if_neg hp.sinkStays, hlookup]
    exact .of_sink hp.sink hkept
  | @edge z y d1 info1 w w' hedge _ hw ih =>
    have hy : y ∉ gone := fun hy => hz (hp.closed z y (edge_of_lookup hedge) hy)
    exact .edge (by rw [hp.lookup, if_neg hz, hedge]) (ih hy) hw

lemma Prunes.valued (hp : Prunes dag dag' gone) (hd : Valued R Ok dag) : Valued R Ok dag' := by
  refine ⟨fun z y d1 info1 hz => ?_, fun e1 info1 hlookup => ?_⟩
  · rw [hp.lookup, Option.ite_none_left_eq_some] at hz
    exact hd.diff z y d1 info1 hz.2
  · rw [hp.sink, hp.lookup, if_neg hp.sinkStays] at hlookup
    exact hd.entity e1 info1 hlookup

end Keeping

end Arweave.DiffDag

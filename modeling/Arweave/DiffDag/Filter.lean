import Arweave.DiffDag.Shape

/-!
# Filtering

`filter` removes whole subtrees: with a node it removes the nodes that lead to it, and the sources
of the nodes that stay lose the removed ones. The sink stays.
-/

namespace Arweave.DiffDag

open Lib

variable {ID E D M : Type} [LinearOrder ID] {dag dag' : Dag ID E D M} {ord : Order ID} {x y id : ID}

/-- The nodes that lead to the given one. -/
def Below (dag : Dag ID E D M) (x y : ID) : Prop := Relation.ReflTransGen (fun a b => dag.edge a = some b) y x

lemma WellFormed.eq_sink_of_below (h : WellFormed dag) (hbelow : Below dag x dag.sink) : x = dag.sink := by
  rcases Relation.ReflTransGen.cases_head hbelow with heq | ⟨y, hedge, -⟩
  · exact heq.symm
  · rw [h.edge_sink] at hedge
    cases hedge

section Marking

abbrev Marks (ID : Type) [LinearOrder ID] := SortedMap ID (OrdSet ID) × OrdSet ID

/-- The marked nodes are those whose sources have been forgotten. -/
def Consistent (dag : Dag ID E D M) (acc : Marks ID) : Prop :=
  ∀ x, acc.1.lookup x = if x ∈ acc.2 then none else dag.sources.lookup x

/-- The subtrees of the given nodes get marked. -/
structure Extends (dag : Dag ID E D M) (ids : List ID) (acc acc' : Marks ID) : Prop where
  consistent : Consistent dag acc'
  mono : ∀ y ∈ acc.2, y ∈ acc'.2
  marked : ∀ id ∈ ids, id ∈ acc'.2
  below : ∀ y ∈ acc'.2, y ∈ acc.2 ∨ ∃ id ∈ ids, Below dag id y
  closed : ∀ b ∈ acc'.2, b ∈ acc.2 ∨ ∀ a, dag.edge a = some b → a ∈ acc'.2

variable {acc acc1 acc2 : Marks ID} {ids : List ID}

lemma Extends.nil (h : Consistent dag acc) : Extends dag [] acc acc :=
  ⟨h, fun _ h => h, by simp, fun _ h => .inl h, fun _ h => .inl h⟩

lemma Extends.cons (h1 : Extends dag [id] acc acc1) (h2 : Extends dag ids acc1 acc2) :
    Extends dag (id :: ids) acc acc2 where
  consistent := h2.consistent
  mono y hy := h2.mono y (h1.mono y hy)
  marked x hx := by
    rcases List.mem_cons.mp hx with rfl | hx
    · exact h2.mono _ (h1.marked _ (by simp))
    · exact h2.marked x hx
  below y hy := by
    rcases h2.below y hy with hy1 | ⟨x, hx, hb⟩
    · rcases h1.below y hy1 with hy0 | ⟨x, hx, hb⟩
      · exact .inl hy0
      · exact .inr ⟨x, List.mem_cons.mpr (.inl (List.mem_singleton.mp hx)), hb⟩
    · exact .inr ⟨x, List.mem_cons_of_mem _ hx, hb⟩
  closed b hb := by
    rcases h2.closed b hb with hb1 | hall
    · rcases h1.closed b hb1 with hb0 | hall
      · exact .inl hb0
      · exact .inr fun a hab => h2.mono a (hall a hab)
    · exact .inr hall

lemma foldlM_extends {f : Marks ID → ID → Option (Marks ID)} (hacc : Consistent dag acc)
    (hf : ∀ id ∈ ids, ∀ acc, Consistent dag acc → ∃ acc', f acc id = some acc' ∧ Extends dag [id] acc acc') :
    ∃ acc', ids.foldlM f acc = some acc' ∧ Extends dag ids acc acc' := by
  induction ids generalizing acc with
  | nil => exact ⟨acc, rfl, .nil hacc⟩
  | cons id ids ih =>
    obtain ⟨acc1, hf1, h1⟩ := hf id (by simp) acc hacc
    obtain ⟨acc2, hfold, h2⟩ := ih h1.consistent fun id hid => hf id (by simp [hid])
    refine ⟨acc2, ?_, h1.cons h2⟩
    rw [List.foldlM_cons, hf1]
    exact hfold

variable (ord) in
/-- The walk from a node and the nodes that lead to it are no more than all the nodes. -/
lemma extendWithSubtreeIdentifiers_spec (h : WellFormed dag) (fuel : Nat) {n : Nat}
    (hwalk : Walk dag.edge dag.sink id n) (hfuel : dag.sinks.size + 1 ≤ n + fuel) (hacc : Consistent dag acc) :
    ∃ acc', extendWithSubtreeIdentifiers ord fuel acc id = some acc' ∧ Extends dag [id] acc acc' := by
  induction fuel generalizing id n acc with
  | zero =>
    have := h.walk_length_le hwalk
    omega
  | succ fuel ih =>
    obtain ⟨sources, toRemove⟩ := acc
    set l := ord.order ((sources.lookup id).getD .empty).elems with hl
    have hsource : ∀ y ∈ l, dag.edge y = some id := by
      intro y hy
      rw [hl, (ord.perm _).mem_iff, OrdSet.mem_elems, hacc id] at hy
      split_ifs at hy
      · exact absurd hy OrdSet.not_mem_empty
      · exact (h.sources id y).mp hy
    have hacc1 : Consistent dag (sources.erase id, toRemove.add id) := by
      intro x
      rw [SortedMap.lookup_erase, hacc x]
      by_cases hx : x = id
      · simp [hx]
      · simp [hx]
    have hbelow : ∀ y ∈ l, ∀ acc, Consistent dag acc → ∃ acc', extendWithSubtreeIdentifiers ord fuel acc y = some acc' ∧
        Extends dag [y] acc acc' := fun y hy acc hacc => ih (.step (hsource y hy) hwalk) (by omega) hacc
    obtain ⟨acc', hfold, hext⟩ := foldlM_extends hacc1 hbelow
    refine ⟨acc', hfold, hext.consistent, ?_, ?_, ?_, ?_⟩
    · exact fun y hy => hext.mono y (OrdSet.mem_add.mpr (.inr hy))
    · intro x hx
      rw [List.mem_singleton.mp hx]
      exact hext.mono id (OrdSet.mem_add.mpr (.inl rfl))
    · intro y hy
      rcases hext.below y hy with hy | ⟨x, hx, hb⟩
      · rcases OrdSet.mem_add.mp hy with rfl | hy
        · exact .inr ⟨y, by simp, Relation.ReflTransGen.refl⟩
        · exact .inl hy
      · exact .inr ⟨id, by simp, hb.tail (hsource x hx)⟩
    · intro b hb
      rcases hext.closed b hb with hb | hall
      · rcases OrdSet.mem_add.mp hb with rfl | hb
        · by_cases hmem : b ∈ toRemove
          · exact .inl hmem
          · right
            intro a hab
            apply hext.marked a
            rw [hl, (ord.perm _).mem_iff, OrdSet.mem_elems, hacc b, if_neg hmem]
            exact (h.sources b a).mpr hab
        · exact .inl hb
      · exact .inr hall

/-- What `filter` marks: the nodes that lead to one that is far from the sink. -/
structure FilterMarks (dag : Dag ID E D M) (sinkCounter depth : Nat) (acc : Marks ID) : Prop where
  consistent : Consistent dag acc
  closed : ∀ a b, dag.edge a = some b → b ∈ acc.2 → a ∈ acc.2
  far : ∀ y ∈ acc.2, ∃ x n, dag.sinks.lookup x = some n ∧ depth < ((n.info.1 : Int) - sinkCounter).natAbs ∧
    Below dag x y

variable (ord) in
lemma filterNode_spec (h : WellFormed dag) {sinkCounter depth : Nat} (hacc : FilterMarks dag sinkCounter depth acc)
    (hid : isNode dag id = true) :
    ∃ acc', filterNode ord dag sinkCounter depth acc id = some acc' ∧ FilterMarks dag sinkCounter depth acc' ∧
      (∀ y ∈ acc.2, y ∈ acc'.2) ∧
      ∀ n, dag.sinks.lookup id = some n → depth < ((n.info.1 : Int) - sinkCounter).natAbs → id ∈ acc'.2 := by
  unfold filterNode
  obtain ⟨n, hn⟩ := isNode_iff.mp hid
  rw [hn, Option.bind_eq_bind, Option.bind_some]
  split_ifs with hmem hnear
  · exact ⟨acc, rfl, hacc, fun _ hy => hy, fun _ _ _ => hmem⟩
  · refine ⟨acc, rfl, hacc, fun _ hy => hy, fun n' hn' hfar => ?_⟩
    cases hn'
    exact absurd hnear hfar.not_ge
  · obtain ⟨k, hwalk⟩ := h.walk id hid
    obtain ⟨acc', hext, he⟩ := extendWithSubtreeIdentifiers_spec ord h (dag.sinks.size + 1) hwalk (by omega)
      hacc.consistent
    refine ⟨acc', hext, ⟨he.consistent, fun a b hab hb => ?_, fun y hy => ?_⟩, he.mono,
      fun _ _ _ => he.marked id List.mem_cons_self⟩
    · rcases he.closed b hb with hb | hall
      · exact he.mono a (hacc.closed a b hab hb)
      · exact hall a hab
    · rcases he.below y hy with hy | ⟨x, hx, hb⟩
      · exact hacc.far y hy
      · rw [List.mem_singleton.mp hx] at hb
        exact ⟨id, n, hn, by omega, hb⟩

variable (ord) in
lemma foldlM_filterNode (h : WellFormed dag) {sinkCounter depth : Nat} (hacc : FilterMarks dag sinkCounter depth acc)
    (hids : ∀ id ∈ ids, isNode dag id = true) :
    ∃ acc', ids.foldlM (filterNode ord dag sinkCounter depth) acc = some acc' ∧
      FilterMarks dag sinkCounter depth acc' ∧ (∀ y ∈ acc.2, y ∈ acc'.2) ∧
      ∀ id ∈ ids, ∀ n, dag.sinks.lookup id = some n → depth < ((n.info.1 : Int) - sinkCounter).natAbs →
        id ∈ acc'.2 := by
  induction ids generalizing acc with
  | nil => exact ⟨acc, rfl, hacc, fun _ hy => hy, by simp⟩
  | cons id ids ih =>
    obtain ⟨acc1, hstep, h1, hmono1, hfar1⟩ := filterNode_spec ord h hacc (hids id (by simp))
    obtain ⟨acc2, hfold, h2, hmono2, hfar2⟩ := ih h1 fun id hid => hids id (by simp [hid])
    refine ⟨acc2, ?_, h2, fun y hy => hmono2 y (hmono1 y hy), fun x hx n hn hfar => ?_⟩
    · rw [List.foldlM_cons, hstep]
      exact hfold
    · rcases List.mem_cons.mp hx with rfl | hx
      · exact hmono2 x (hfar1 n hn hfar)
      · exact hfar2 x hx n hn hfar

end Marking

lemma removeNode_spec (toRemove : OrdSet ID) {z t : ID} {d : D} {info : Nat × M}
    {acc : SortedMap ID (Node ID E D M) × SortedMap ID (OrdSet ID)} (hz : acc.1.lookup z = some (.edge t d info))
    (hedge : dag.edge z = some t) :
    ∃ acc', removeNode toRemove acc z = some acc' ∧
      (∀ x, acc'.1.lookup x = if x = z then none else acc.1.lookup x) ∧
      ∀ x y, y ∈ (acc'.2.lookup x).getD .empty ↔
        y ∈ (acc.2.lookup x).getD .empty ∧ (x ∈ toRemove ∨ ¬ (y = z ∧ dag.edge y = some x)) := by
  refine ⟨(acc.1.erase z, if t ∈ toRemove then acc.2 else acc.2.insert t (((acc.2.lookup t).getD .empty).erase z)),
    by rw [removeNode, hz], fun x => SortedMap.lookup_erase .., fun x y => ?_⟩
  dsimp only
  split_ifs with ht
  · -- the sources of a removed node are forgotten
    refine ⟨fun hy => ⟨hy, ?_⟩, fun hy => hy.1⟩
    by_cases hx : x ∈ toRemove
    · exact .inl hx
    · right
      rintro ⟨rfl, hyx⟩
      rw [hedge, Option.some.injEq] at hyx
      exact hx (hyx ▸ ht)
  · rw [SortedMap.lookup_insert]
    split_ifs with hx
    · rw [Option.getD_some, OrdSet.mem_erase, hx]
      constructor
      · rintro ⟨hne, hy⟩
        exact ⟨hy, .inr fun hyz => hne hyz.1⟩
      · rintro ⟨hy, hmem | hnot⟩
        · exact absurd hmem ht
        · exact ⟨fun heq => hnot ⟨heq, heq ▸ hedge⟩, hy⟩
    · refine ⟨fun hy => ⟨hy, .inr ?_⟩, fun hy => hy.1⟩
      rintro ⟨rfl, hyx⟩
      rw [hedge, Option.some.injEq] at hyx
      exact hx hyx.symm

lemma foldlM_removeNode (toRemove : OrdSet ID) {l : List ID} (hnodup : l.Nodup)
    {acc : SortedMap ID (Node ID E D M) × SortedMap ID (OrdSet ID)}
    (hl : ∀ x ∈ l, ∃ y d info, acc.1.lookup x = some (.edge y d info) ∧ dag.edge x = some y) :
    ∃ acc', l.foldlM (removeNode toRemove) acc = some acc' ∧
      (∀ x, acc'.1.lookup x = if x ∈ l then none else acc.1.lookup x) ∧
      ∀ x y, y ∈ (acc'.2.lookup x).getD .empty ↔
        y ∈ (acc.2.lookup x).getD .empty ∧ (x ∈ toRemove ∨ ¬ (y ∈ l ∧ dag.edge y = some x)) := by
  induction l generalizing acc with
  | nil => exact ⟨acc, rfl, by simp, by simp⟩
  | cons z l ih =>
    rw [List.nodup_cons] at hnodup
    obtain ⟨t, d, info, hz, hedge⟩ := hl z (by simp)
    obtain ⟨acc1, hstep, hlookup1, hsource⟩ := removeNode_spec toRemove hz hedge
    have hrest : ∀ x ∈ l, ∃ y d info, acc1.1.lookup x = some (.edge y d info) ∧ dag.edge x = some y := by
      intro x hx
      obtain ⟨y, d, info, hx', hxy⟩ := hl x (by simp [hx])
      refine ⟨y, d, info, ?_, hxy⟩
      rw [hlookup1, if_neg, hx']
      rintro rfl
      exact hnodup.1 hx
    obtain ⟨acc', hfold, hlookup, hsources⟩ := ih hnodup.2 hrest
    refine ⟨acc', ?_, fun x => ?_, fun x y => ?_⟩
    · rw [List.foldlM_cons, hstep]
      exact hfold
    · rw [hlookup, hlookup1]
      by_cases hx : x = z <;> by_cases hxl : x ∈ l <;> simp [hx, hxl]
    · rw [hsources, hsource, List.mem_cons]
      tauto

/-- What `filter` does: the removed nodes are gone with the nodes that lead to them. -/
structure Prunes (dag dag' : Dag ID E D M) (gone : OrdSet ID) : Prop where
  sink : dag'.sink = dag.sink
  sinkStays : dag.sink ∉ gone
  lookup : ∀ x, dag'.sinks.lookup x = if x ∈ gone then none else dag.sinks.lookup x
  closed : ∀ a b, dag.edge a = some b → b ∈ gone → a ∈ gone
  sources : ∀ x y, y ∈ dag'.sourcesOf x ↔ y ∈ dag.sourcesOf x ∧ x ∉ gone ∧ ¬ (y ∈ gone ∧ dag.edge y = some x)

lemma Prunes.edge {gone : OrdSet ID} (hp : Prunes dag dag' gone) (x : ID) :
    dag'.edge x = if x ∈ gone then none else dag.edge x := by
  rw [Dag.edge, hp.lookup, Dag.edge]
  split_ifs <;> rfl

lemma Prunes.isNode_iff {gone : OrdSet ID} (hp : Prunes dag dag' gone) :
    isNode dag' x = true ↔ x ∉ gone ∧ isNode dag x = true := by
  rw [isNode, hp.lookup, isNode]
  split_ifs with hx <;> simp [hx]

lemma Prunes.wellFormed {gone : OrdSet ID} (hp : Prunes dag dag' gone) (h : WellFormed dag) : WellFormed dag' := by
  refine ⟨?_, fun x e info hx => ?_, fun x hx => ?_, fun x y => ?_⟩
  · rw [hp.sink, hp.lookup, if_neg hp.sinkStays]
    exact h.sink
  · rw [hp.lookup, Option.ite_none_left_eq_some] at hx
    rw [hp.sink]
    exact h.only x e info hx.2
  · obtain ⟨hx, hnode⟩ := hp.isNode_iff.mp hx
    obtain ⟨n, hwalk⟩ := h.walk x hnode
    refine ⟨n, ?_⟩
    rw [hp.sink]
    refine hwalk.transfer (P := (· ∉ gone)) (f := fun a => a) (fun a b ha hab => ?_) hx
    exact ⟨fun hb => ha (hp.closed a b hab hb), by rw [hp.edge, if_neg ha, hab]⟩
  · rw [hp.sources, hp.edge, h.sources, Option.ite_none_left_eq_some]
    constructor
    · rintro ⟨hedge, -, hnot⟩
      exact ⟨fun hy => hnot ⟨hy, hedge⟩, hedge⟩
    · rintro ⟨hy, hedge⟩
      exact ⟨hedge, fun hx => hy (hp.closed y x hedge hx), fun hyx => hy hyx.1⟩

/-- The counter of the node is within the depth of the sink's. -/
def Near (dag : Dag ID E D M) (depth : Nat) (x : ID) : Prop :=
  ∀ n ∈ dag.sinks.lookup x, ∀ s ∈ dag.sinks.lookup dag.sink, ((n.info.1 : Int) - s.info.1).natAbs ≤ depth

variable (ord) in
lemma WellFormed.marks (h : WellFormed dag) {e : E} {sinkCounter depth : Nat} {metadata : M}
    (hsink : dag.sinks.lookup dag.sink = some (.sink e (sinkCounter, metadata))) :
    ∃ sources gone, (ord.order (dag.sinks.entries.map Prod.fst)).foldlM (filterNode ord dag sinkCounter depth)
        (dag.sources, .empty) = some (sources, gone) ∧
      FilterMarks dag sinkCounter depth (sources, gone) ∧
      ∀ y, y ∈ gone ↔ ∃ x, Below dag x y ∧ ¬ Near dag depth x := by
  have hinit : FilterMarks dag sinkCounter depth (dag.sources, .empty) :=
    ⟨fun x => by simp, fun _ _ _ hb => absurd hb OrdSet.not_mem_empty, fun _ hy => absurd hy OrdSet.not_mem_empty⟩
  have hids : ∀ id ∈ ord.order (dag.sinks.entries.map Prod.fst), isNode dag id = true := by
    intro id hid
    obtain ⟨⟨_, n⟩, hmem, rfl⟩ := List.mem_map.mp ((ord.perm _).mem_iff.mp hid)
    exact isNode_of_lookup (SortedMap.lookup_eq_some.mpr hmem)
  obtain ⟨⟨sources, gone⟩, hmark, hmarks, -, hfars⟩ := foldlM_filterNode ord h hinit hids
  have hfar : ∀ x, ¬ Near dag depth x ↔
      ∃ n, dag.sinks.lookup x = some n ∧ depth < ((n.info.1 : Int) - sinkCounter).natAbs := by
    intro x
    simp only [Near, hsink, Option.mem_def, Option.some.injEq, forall_eq', Node.info]
    push Not
    rfl
  refine ⟨sources, gone, hmark, hmarks, fun y => ?_⟩
  simp only [hfar]
  constructor
  · intro hy
    obtain ⟨x, n, hx, hdepth, hbelow⟩ := hmarks.far y hy
    exact ⟨x, hbelow, n, hx, hdepth⟩
  · rintro ⟨x, hbelow, n, hx, hdepth⟩
    have hmem : x ∈ ord.order (dag.sinks.entries.map Prod.fst) :=
      (ord.perm _).mem_iff.mpr (List.mem_map.mpr ⟨_, SortedMap.lookup_eq_some.mp hx, rfl⟩)
    have hxgone : x ∈ gone := hfars x hmem n hx hdepth
    -- along the edges the marks are passed on to the sources
    induction hbelow using Relation.ReflTransGen.head_induction_on with
    | refl => exact hxgone
    | head hedge _ ih => exact hmarks.closed _ _ hedge ih

variable (ord) in
/-- The nodes that go are those that lead to one that is not near. -/
lemma WellFormed.filter (h : WellFormed dag) (depth : Nat) :
    ∃ dag' gone, filter ord dag depth = some dag' ∧ Prunes dag dag' gone ∧
      ∀ y, y ∈ gone ↔ ∃ x, Below dag x y ∧ ¬ Near dag depth x := by
  obtain ⟨e, ⟨sinkCounter, metadata⟩, hsink⟩ := h.sink
  obtain ⟨sources2, gone, hmark, hmarks, hgone⟩ := h.marks ord hsink
  have hnode : ∀ y ∈ gone, isNode dag y = true := by
    intro y hy
    obtain ⟨x, n, hx, -, hbelow⟩ := hmarks.far y hy
    rcases Relation.ReflTransGen.cases_head hbelow with rfl | ⟨z, hedge, -⟩
    · exact isNode_of_lookup hx
    · exact WellFormed.isNode_source hedge
  have hstays : dag.sink ∉ gone := by
    intro hmem
    obtain ⟨x, n, hx, hfar, hbelow⟩ := hmarks.far dag.sink hmem
    rw [h.eq_sink_of_below hbelow, hsink, Option.some.injEq] at hx
    rw [← hx, Node.info] at hfar
    simp at hfar
  have hedges : ∀ x ∈ ord.order gone.elems, ∃ y d info,
      (dag.sinks, sources2).1.lookup x = some (.edge y d info) ∧ dag.edge x = some y := by
    intro x hx
    have hx' : x ∈ gone := (ord.perm _).mem_iff.mp hx
    obtain ⟨y, d, info, hlookup⟩ := h.exists_edge (hnode x hx') fun heq => hstays (heq ▸ hx')
    exact ⟨y, d, info, hlookup, edge_of_lookup hlookup⟩
  obtain ⟨⟨sinks, sources⟩, hremove, hlookup, hsources⟩ :=
    foldlM_removeNode gone ((ord.perm _).nodup_iff.mpr gone.nodup) hedges
  have hmem : ∀ x, x ∈ ord.order gone.elems ↔ x ∈ gone := fun x => (ord.perm _).mem_iff
  refine ⟨{ sinks := sinks, sink := dag.sink, sources := sources }, gone, ?_,
    ⟨rfl, hstays, fun x => ?_, hmarks.closed, fun x y => ?_⟩, hgone⟩
  · rw [DiffDag.filter, hsink]
    simp only [hmark, Option.bind_eq_bind, Option.bind_some, hremove]
  · rw [hlookup]
    simp only [hmem]
  · change y ∈ (sources.lookup x).getD .empty ↔ _
    rw [hsources, hmarks.consistent x, Dag.sourcesOf]
    simp only [hmem]
    split_ifs with hx
    · simp [hx]
    · simp [hx]

end Arweave.DiffDag

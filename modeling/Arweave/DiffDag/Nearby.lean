import Arweave.DiffDag.Runs

/-!
# The nodes that are near the sink

A move of the sink turns edges around and leaves the counters as they are, so that on the way to the
sink the counters go up and down. `filter` keeps the nodes whose whole way is near the sink's counter,
and changes nothing else.
-/

namespace Arweave.DiffDag

open Lib

variable {ID E D M : Type} [LinearOrder ID] {apply : D → E → Option E} {dag dag' : Dag ID E D M} {gone : OrdSet ID}
  {x : ID}

lemma Prunes.walk (hp : Prunes dag dag' gone) {n : Nat} (hx : x ∉ gone) (h : Walk dag.edge dag.sink x n) :
    Walk dag'.edge dag'.sink x n := by
  rw [hp.sink]
  refine h.transfer (P := (· ∉ gone)) (f := fun a => a) (fun a b ha hab => ?_) hx
  exact ⟨fun hb => ha (hp.closed a b hab hb), by rw [hp.edge, if_neg ha, hab]⟩

lemma Prunes.reconstructFrom (hp : Prunes dag dag' gone) (h : WellFormed dag) {n fuel fuel' : Nat} {diffs : List D}
    (hwalk : Walk dag.edge dag.sink x n) (hx : x ∉ gone) (hfuel : n < fuel) (hfuel' : n < fuel') :
    reconstructFrom apply dag' fuel' x diffs = reconstructFrom apply dag fuel x diffs := by
  induction hwalk generalizing fuel fuel' diffs with
  | root =>
    obtain ⟨e, info, hsink⟩ := h.sink
    obtain ⟨fuel, rfl⟩ : ∃ k, fuel = k + 1 := ⟨fuel - 1, by omega⟩
    obtain ⟨fuel', rfl⟩ : ∃ k, fuel' = k + 1 := ⟨fuel' - 1, by omega⟩
    rw [DiffDag.reconstructFrom, DiffDag.reconstructFrom, hp.lookup, if_neg hx, hsink, hp.sink]
  | @step x y n hnext hwalk ih =>
    obtain ⟨d, info, hlookup⟩ := edge_eq_some.mp hnext
    obtain ⟨fuel, rfl⟩ : ∃ k, fuel = k + 1 := ⟨fuel - 1, by omega⟩
    obtain ⟨fuel', rfl⟩ : ∃ k, fuel' = k + 1 := ⟨fuel' - 1, by omega⟩
    rw [DiffDag.reconstructFrom, DiffDag.reconstructFrom, hp.lookup, if_neg hx, hlookup]
    exact ih (fun hy => hx (hp.closed x y hnext hy)) (by omega) (by omega)

lemma Prunes.reconstruct (hp : Prunes dag dag' gone) (h : WellFormed dag) (hx : isNode dag' x = true) :
    reconstruct apply dag' x = reconstruct apply dag x := by
  obtain ⟨hstays, hnode⟩ := hp.isNode_iff.mp hx
  obtain ⟨n, hwalk⟩ := h.walk x hnode
  have hle := h.walk_length_le hwalk
  have hle' := (hp.wellFormed h).walk_length_le (hp.walk hstays hwalk)
  rw [DiffDag.reconstruct, DiffDag.reconstruct, if_pos hx, if_pos hnode,
    hp.reconstructFrom h hwalk hstays (Nat.lt_succ_of_le hle) (Nat.lt_succ_of_le hle')]

/-- Of a well-formed DAG the filter keeps the sink and the nodes whose way to the sink is near it at
every node. They are left as they are, the others are not found, and the result is well formed. -/
theorem filter_keeps_nearby (ord : Order ID) (apply : D → E → Option E) (dag : Dag ID E D M) (h : WellFormed dag)
    (depth : Nat) :
    ∃ dag', filter ord dag depth = some dag' ∧ WellFormed dag' ∧
      dag'.sink = dag.sink ∧ isNode dag' dag.sink = true ∧
      (∀ x, isNode dag' x = true ↔ isNode dag x = true ∧ ∀ z, Below dag z x → Near dag depth z) ∧
      (∀ x, isNode dag' x = true → dag'.sinks.lookup x = dag.sinks.lookup x ∧
        reconstruct apply dag' x = reconstruct apply dag x) ∧
      ∀ x, isNode dag' x = false → reconstruct apply dag' x = some none := by
  obtain ⟨dag', gone, hfilter, hp, hgone⟩ := h.filter ord depth
  refine ⟨dag', hfilter, hp.wellFormed h, hp.sink, ?_, fun x => ?_, fun x hx => ⟨?_, hp.reconstruct h hx⟩, fun x hx => ?_⟩
  · exact hp.isNode_iff.mpr ⟨hp.sinkStays, h.isNode_sink⟩
  · rw [hp.isNode_iff, hgone, and_comm]
    push Not
    rfl
  · rw [hp.lookup, if_neg (hp.isNode_iff.mp hx).1]
  · rw [DiffDag.reconstruct, hx, if_neg Bool.false_ne_true]

/-- Two nodes in a row on the first one, and the sink moved to the last one: with depth one the
first node goes, and so does a node behind it, although its counter is near. -/
def towerOps : List (Op Nat Int Int Nat) :=
  [.addNode 2 1 1 12, .addNode 3 2 1 13, .addNode 4 1 5 14, .moveSink 3]

theorem filter_keeps_nearby_towerOps :
    ∃ dag, run (ascending Nat) addDiff negateDiff 1 0 11 towerOps = some dag ∧ WellFormed dag ∧
      ∃ dag', filter (ascending Nat) dag 1 = some dag' ∧ WellFormed dag' ∧ isNode dag' 2 = true ∧
        reconstruct addDiff dag' 2 = reconstruct addDiff dag 2 ∧ isNode dag 4 = true ∧
        Near dag 1 4 ∧ reconstruct addDiff dag' 4 = some none := by
  have hundo : ∀ d e, ∃ e', addDiff d e = some e' ∧ addDiff (negateDiff d e) e' = some e := fun d e =>
    ⟨e + d, rfl, by simp [addDiff, negateDiff]⟩
  have hrun : (run (ascending Nat) addDiff negateDiff 1 0 11 towerOps).isSome = true := by decide
  obtain ⟨dag, hdag⟩ := Option.isSome_iff_exists.mp hrun
  have hwf : WellFormed dag := (wellFormed_new 1 0 11).run hundo (by decide) hdag
  obtain ⟨dag', hfilter, hwf', -, -, hnode, hkept, hlost⟩ := filter_keeps_nearby (ascending Nat) addDiff dag hwf 1
  have hfiltered : (filter (ascending Nat) dag 1).map (fun dag' => (isNode dag' 2, isNode dag' 4)) =
      some (true, false) := by
    have hall : (run (ascending Nat) addDiff negateDiff 1 0 11 towerOps).bind (fun dag =>
        (filter (ascending Nat) dag 1).map fun dag' => (isNode dag' 2, isNode dag' 4)) = some (true, false) := by decide
    rwa [hdag] at hall
  have hcounters : ((dag.sinks.lookup 4).map (·.info.1), (dag.sinks.lookup dag.sink).map (·.info.1)) = (some 1, some 2) := by
    have hall : (run (ascending Nat) addDiff negateDiff 1 0 11 towerOps).map (fun dag =>
        ((dag.sinks.lookup 4).map (·.info.1), (dag.sinks.lookup dag.sink).map (·.info.1))) = some (some 1, some 2) := by
      decide
    rwa [hdag, Option.map_some, Option.some.injEq] at hall
  rw [hfilter, Option.map_some, Option.some.injEq, Prod.mk.injEq] at hfiltered
  obtain ⟨hcounter4, hcounter⟩ := Prod.mk.inj hcounters
  refine ⟨dag, hdag, hwf, dag', hfilter, hwf', hfiltered.1, (hkept 2 hfiltered.1).2, ?_, ?_, hlost 4 hfiltered.2⟩
  · rw [isNode, ← Option.isSome_map (f := (·.info.1)), hcounter4]
    rfl
  · intro n hn s hs
    rw [hn, Option.map_some, Option.some.injEq] at hcounter4
    rw [hs, Option.map_some, Option.some.injEq] at hcounter
    rw [hcounter4, hcounter]
    decide

end Arweave.DiffDag

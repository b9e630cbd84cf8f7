import Mathlib.Data.List.Perm.Subperm

/-!
# Walks

Walks along a partial function to a root where it is not defined. From a place there is one walk,
it visits no place twice, and a change of the function that keeps the steps of a walk keeps the
walk.
-/

namespace Arweave.Lib

variable {α : Type*}

/-- From a place the root is reached in that number of steps. -/
inductive Walk (next : α → Option α) (root : α) : α → Nat → Prop
  | root : Walk next root root 0
  | step {x y : α} {n : Nat} (hnext : next x = some y) (hwalk : Walk next root y n) : Walk next root x (n + 1)

variable {next next' : α → Option α} {root x y : α} {n m : Nat}

namespace Walk

lemma unique (hroot : next root = none) (h : Walk next root x n) (h' : Walk next root x m) : n = m := by
  induction h generalizing m with
  | root =>
    cases h' with
    | root => rfl
    | step hnext _ =>
      rw [hroot] at hnext
      cases hnext
  | step hnext _ ih =>
    cases h' with
    | root =>
      rw [hroot] at hnext
      cases hnext
    | step hnext' hwalk' =>
      rw [hnext, Option.some.injEq] at hnext'
      rw [ih (hnext' ▸ hwalk')]

lemma length_le (hroot : next root = none) (h : Walk next root x n) {l : List α}
    (hl : ∀ y z, next y = some z → y ∈ l) : n ≤ l.length := by
  -- the places on the way are at different distances from the root
  have hvisited : ∃ visited : List α, visited.length = n ∧ visited.Nodup ∧
      ∀ y ∈ visited, (∃ z, next y = some z) ∧ ∃ m ≤ n, Walk next root y m := by
    induction h with
    | root => exact ⟨[], rfl, List.nodup_nil, by simp⟩
    | @step x y n hnext hwalk ih =>
      obtain ⟨visited, hlength, hnodup, hall⟩ := ih
      refine ⟨x :: visited, by simp [hlength], List.nodup_cons.mpr ⟨fun hmem => ?_, hnodup⟩, fun z hz => ?_⟩
      · obtain ⟨-, m, hle, hm⟩ := hall x hmem
        have := unique hroot hm (.step hnext hwalk)
        omega
      · rcases List.mem_cons.mp hz with rfl | hz
        · exact ⟨⟨y, hnext⟩, n + 1, Nat.le_refl _, .step hnext hwalk⟩
        · obtain ⟨hstep, m, hle, hm⟩ := hall z hz
          exact ⟨hstep, m, by omega, hm⟩
  obtain ⟨visited, hlength, hnodup, hall⟩ := hvisited
  rw [← hlength]
  refine (List.subperm_of_subset hnodup fun y hy => ?_).length_le
  obtain ⟨⟨z, hz⟩, -⟩ := hall y hy
  exact hl y z hz

lemma transfer {P : α → Prop} {f : α → α} (hstep : ∀ y z, P y → next y = some z → P z ∧ next' (f y) = some (f z))
    (hx : P x) (h : Walk next root x n) : Walk next' (f root) (f x) n := by
  induction h with
  | root => exact .root
  | step hnext _ ih =>
    obtain ⟨hP, hnext'⟩ := hstep _ _ hx hnext
    exact .step hnext' (ih hP)

lemma turn (hroot : next' root = some x)
    (hother : ∀ y, y ≠ x → y ≠ root → next' y = next y) (h : Walk next root y n) :
    ∃ m, Walk next' x y m := by
  induction h with
  | root => exact ⟨1, .step hroot .root⟩
  | @step y z n hnext _ ih =>
    obtain ⟨m, hm⟩ := ih
    by_cases hyx : y = x
    · exact ⟨0, hyx ▸ .root⟩
    · by_cases hyr : y = root
      · exact ⟨1, hyr ▸ .step hroot .root⟩
      · exact ⟨m + 1, .step ((hother y hyx hyr).trans hnext) hm⟩

lemma of_leads (hroot : next root = none) (h : Walk next root x n)
    (hleads : Relation.ReflTransGen (fun a b => next a = some b) x y) : ∃ m ≤ n, Walk next root y m := by
  induction hleads with
  | refl => exact ⟨n, Nat.le_refl _, h⟩
  | tail _ hnext ih =>
    obtain ⟨m, hle, hm⟩ := ih
    cases hm with
    | root =>
      rw [hroot] at hnext
      cases hnext
    | @step _ z m hnext' hwalk =>
      rw [hnext', Option.some.injEq] at hnext
      exact ⟨m, by omega, hnext ▸ hwalk⟩

lemma leads (h : Walk next root x n) : Relation.ReflTransGen (fun a b => next a = some b) x root := by
  induction h with
  | root => exact .refl
  | step hnext _ ih => exact .head hnext ih

lemma not_transGen_self (hroot : next root = none) (h : Walk next root x n) :
    ¬ Relation.TransGen (fun a b => next a = some b) x x := by
  intro hcycle
  obtain ⟨y, hnext, hback⟩ := Relation.TransGen.head'_iff.mp hcycle
  cases h with
  | root =>
    rw [hroot] at hnext
    cases hnext
  | step hnext' hwalk =>
    rw [hnext', Option.some.injEq] at hnext
    obtain ⟨m, hle, hm⟩ := (hnext ▸ hwalk).of_leads hroot hback
    have := unique hroot hm (.step hnext' hwalk)
    omega

end Walk

end Arweave.Lib

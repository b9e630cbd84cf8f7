import Mathlib.Logic.Function.Basic
import Mathlib.Data.List.Basic
import Mathlib.Data.List.Induction

/-!
# Operations that overwrite

An operation gives every place either a value of its own or leaves it as it is. The last operation
that gives a place a value decides what is there, so that a list of operations can be performed
again over its own result.
-/

namespace Arweave.Lib

variable {ι X V : Type*}

/-- The places after an operation. -/
def overwrite (assign : ι → X → Option V) (σ : X → V) (op : ι) : X → V := fun x => (assign op x).getD (σ x)

variable {assign : ι → X → Option V} {σ : X → V} {op : ι} {ops : List ι} {x : X}

lemma overwrite_apply : overwrite assign σ op x = (assign op x).getD (σ x) := rfl

lemma foldl_overwrite_cases (assign : ι → X → Option V) (ops : List ι) (x : X) :
    (∃ v, ∀ σ, ops.foldl (overwrite assign) σ x = v) ∨ ∀ σ, ops.foldl (overwrite assign) σ x = σ x := by
  induction ops with
  | nil => exact Or.inr fun σ => rfl
  | cons op ops ih =>
    obtain ⟨v, hv⟩ | hkeep := ih
    · exact Or.inl ⟨v, fun σ => hv _⟩
    · cases h : assign op x with
      | some v => exact Or.inl ⟨v, fun σ => by rw [List.foldl_cons, hkeep, overwrite_apply, h]; rfl⟩
      | none => exact Or.inr fun σ => by rw [List.foldl_cons, hkeep, overwrite_apply, h]; rfl

/-- Performing the operations a second time changes nothing. -/
theorem foldl_overwrite_idem (ops : List ι) (σ : X → V) :
    ops.foldl (overwrite assign) (ops.foldl (overwrite assign) σ) = ops.foldl (overwrite assign) σ := by
  funext x
  obtain ⟨v, hv⟩ | hkeep := foldl_overwrite_cases assign ops x
  · rw [hv, hv]
  · rw [hkeep]

lemma concat_eq_append_cons {l before later : List ι} {a b : ι} :
    l ++ [a] = before ++ b :: later ↔
      (l = before ∧ a = b ∧ later = []) ∨ ∃ rest, later = rest ++ [a] ∧ l = before ++ b :: rest := by
  obtain rfl | ⟨rest, last, rfl⟩ := List.eq_nil_or_concat' later
  · simp
  · rw [← List.cons_append, ← List.append_assoc]
    constructor
    · intro h
      obtain ⟨hl, hlast⟩ := List.append_inj' h rfl
      cases hlast
      exact .inr ⟨rest, rfl, hl⟩
    · rintro (⟨-, -, h⟩ | ⟨rest', h, rfl⟩)
      · simp at h
      · obtain ⟨rfl, hlast⟩ := List.append_inj' h rfl
        rw [hlast]

/-- A proposition holds at a place after the operations if the last one that gives the place a value makes it true. -/
lemma foldl_overwrite_iff {assign : ι → X → Option Prop} (ops : List ι) (x : X) :
    ops.foldl (overwrite assign) (fun _ => False) x ↔
      ∃ before op later, ops = before ++ op :: later ∧ assign op x = some True ∧ ∀ op' ∈ later, assign op' x = none := by
  induction ops using List.reverseRecOn with
  | nil => simp
  | append_singleton ops op ih =>
    rw [List.foldl_append, List.foldl_cons, List.foldl_nil, overwrite_apply]
    cases hassign : assign op x with
    | none =>
      rw [Option.getD_none, ih]
      constructor
      · rintro ⟨before, op', later, rfl, htrue, hlater⟩
        refine ⟨before, op', later ++ [op], by simp, htrue, ?_⟩
        intro op'' hop''
        obtain hop'' | hop'' := List.mem_append.mp hop''
        · exact hlater op'' hop''
        · rw [List.mem_singleton.mp hop'', hassign]
      · rintro ⟨before, op', later, heq, htrue, hlater⟩
        obtain ⟨-, rfl, -⟩ | ⟨rest, rfl, hops⟩ := concat_eq_append_cons.mp heq
        · rw [hassign] at htrue
          cases htrue
        · exact ⟨before, op', rest, hops, htrue, fun op'' hop'' => hlater op'' (List.mem_append_left _ hop'')⟩
    | some P =>
      rw [Option.getD_some]
      constructor
      · intro hP
        exact ⟨ops, op, [], rfl, by rw [hassign, eq_true hP], by simp⟩
      · rintro ⟨before, op', later, heq, htrue, hlater⟩
        obtain ⟨-, rfl, -⟩ | ⟨rest, rfl, -⟩ := concat_eq_append_cons.mp heq
        · rw [hassign] at htrue
          exact of_eq_true (Option.some.inj htrue)
        · -- the last operation gives the place a value
          have hnone := hlater op (by simp)
          rw [hassign] at hnone
          cases hnone

end Arweave.Lib

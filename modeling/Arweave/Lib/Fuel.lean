import Mathlib.Data.Nat.Basic

/-!
# Loops with fuel

A loop that may not end takes an amount of fuel, and has no result when it runs out. It returns a value when
every sufficient amount gives that value.
-/

namespace Arweave.Lib

variable {α β : Type*} {f : Nat → Option α} {g : α → Nat → Option β} {a a' : α} {b : β}

def Returns (f : Nat → Option α) (a : α) : Prop := ∃ n, ∀ fuel, n ≤ fuel → f fuel = some a

lemma returns_const (h : ∀ fuel, f fuel = some a) : Returns f a := ⟨0, fun fuel _ => h fuel⟩

lemma Returns.of_succ (h : Returns (fun fuel => f (fuel + 1)) a) : Returns f a := by
  obtain ⟨n, hn⟩ := h
  refine ⟨n + 1, fun fuel hle => ?_⟩
  obtain ⟨fuel, rfl⟩ := Nat.exists_eq_add_of_le' hle
  exact hn (fuel + n) (by omega)

lemma Returns.bind (h : Returns f a) (h' : Returns (g a) b) : Returns (fun fuel => (f fuel).bind fun a => g a fuel) b := by
  obtain ⟨n, hn⟩ := h
  obtain ⟨n', hn'⟩ := h'
  refine ⟨max n n', fun fuel hle => ?_⟩
  simp only [hn fuel (le_trans (le_max_left n n') hle), Option.bind_some]
  exact hn' fuel (le_trans (le_max_right n n') hle)

lemma Returns.map (h : Returns f a) (F : α → β) : Returns (fun fuel => (f fuel).map F) (F a) := by
  obtain ⟨n, hn⟩ := h
  refine ⟨n, fun fuel hle => ?_⟩
  simp only [hn fuel hle, Option.map_some]

lemma Returns.unique (h : Returns f a) (h' : Returns f a') : a = a' := by
  obtain ⟨n, hn⟩ := h
  obtain ⟨n', hn'⟩ := h'
  have heq := hn (max n n') (le_max_left n n')
  rw [hn' (max n n') (le_max_right n n')] at heq
  exact (Option.some.inj heq).symm

end Arweave.Lib

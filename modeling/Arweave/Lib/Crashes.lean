import Mathlib.Data.List.Basic

/-!
# Crashes between writes

A list of writes is cut off after any of them. Some writes must not be the last one before the cut.
-/

namespace Arweave.Lib

variable {σ ω : Type*} {apply : σ → ω → σ} {torn : ω → Prop} {P : σ → Prop} {s : σ} {writes rest : List ω}

/-- A property holds wherever the writes are cut off, unless the last write done is a torn one. -/
def Survives (apply : σ → ω → σ) (torn : ω → Prop) (P : σ → Prop) (s : σ) (writes : List ω) : Prop :=
  ∀ k, (∀ w, (writes.take k).getLast? = some w → ¬torn w) → P ((writes.take k).foldl apply s)

lemma survives_nil (h : P s) : Survives apply torn P s [] := by
  intro k _
  rw [List.take_nil]
  exact h

lemma survives_singleton (h : P s) {w : ω} (h' : P (apply s w)) : Survives apply torn P s [w] := by
  intro k _
  cases k with
  | zero => exact h
  | succ k =>
    rw [List.take_succ_cons, List.take_nil]
    exact h'

lemma survives_pair (h : P s) {w w' : ω} (hfirst : ¬torn w → P (apply s w)) (hboth : P (apply (apply s w) w')) :
    Survives apply torn P s [w, w'] := by
  intro k hk
  match k with
  | 0 => exact h
  | 1 => exact hfirst (hk w rfl)
  | k + 2 =>
    rw [List.take_succ_cons, List.take_succ_cons, List.take_nil]
    exact hboth

lemma Survives.append (h : Survives apply torn P s writes) (hrest : Survives apply torn P (writes.foldl apply s) rest) :
    Survives apply torn P s (writes ++ rest) := by
  intro k hk
  obtain hlt | hle := Nat.lt_or_ge writes.length k
  · obtain ⟨m, rfl⟩ := Nat.exists_eq_add_of_lt hlt
    rw [Nat.add_assoc, List.take_length_add_append] at hk ⊢
    rw [List.foldl_append]
    cases hcut : rest.take (m + 1) with
    | nil =>
      -- nothing of the rest is done, so the last write is one of the first part
      rw [hcut, List.append_nil] at hk
      have hwhole := h writes.length
      rw [List.take_length] at hwhole
      exact hwhole hk
    | cons w ws =>
      have hend := hrest (m + 1)
      rw [hcut] at hend
      apply hend
      intro w' hlast
      apply hk w'
      rw [hcut, List.getLast?_append, hlast]
      rfl
  · rw [List.take_append_of_le_length hle] at hk ⊢
    exact h k hk

end Arweave.Lib

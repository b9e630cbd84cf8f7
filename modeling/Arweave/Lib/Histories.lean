import Mathlib.Data.List.Basic
import Mathlib.Data.List.Induction

/-!
# Histories

What the operations performed so far say about the state they lead to: an event that no later one ended, and the
properties that relate the states of a run to their histories.
-/

namespace Arweave.Lib

section Since

variable {α : Type*} {ends : α → Prop} {event event' x : α} {history rest : List α}

/-- An event happened, and no later one ends it. -/
def Since (ends : α → Prop) (event : α) (history : List α) : Prop :=
  ∃ before after, history = before ++ event :: after ∧ ∀ later ∈ after, ¬ ends later

lemma since_nil : ¬ Since ends event [] := by
  rintro ⟨before, after, heq, -⟩
  simp at heq

lemma since_concat : Since ends event (history ++ [x]) ↔ x = event ∨ Since ends event history ∧ ¬ ends x := by
  constructor
  · rintro ⟨before, after, heq, hafter⟩
    rcases List.eq_nil_or_concat after with rfl | ⟨after, y, rfl⟩
    · obtain ⟨-, hlast⟩ := List.append_inj' heq rfl
      exact Or.inl (List.cons.inj hlast).1
    · rw [List.concat_eq_append] at heq hafter
      rw [← List.cons_append, ← List.append_assoc] at heq
      obtain ⟨hhistory, hlast⟩ := List.append_inj' heq rfl
      obtain ⟨rfl, -⟩ := List.cons.inj hlast
      exact Or.inr ⟨⟨before, after, hhistory, fun later hlater => hafter later (by simp [hlater])⟩, hafter x (by simp)⟩
  · rintro (rfl | ⟨⟨before, after, rfl, hafter⟩, hx⟩)
    · exact ⟨history, [], rfl, by simp⟩
    · refine ⟨before, after ++ [x], by simp, ?_⟩
      intro later hlater
      rcases List.mem_append.mp hlater with hmem | hmem
      · exact hafter later hmem
      · rwa [List.mem_singleton.mp hmem]

lemma since_append :
    Since ends event (history ++ rest) ↔ Since ends event rest ∨ Since ends event history ∧ ∀ x ∈ rest, ¬ ends x := by
  induction rest using List.reverseRecOn with
  | nil => simp [since_nil]
  | append_singleton rest x ih =>
    rw [← List.append_assoc, since_concat, since_concat, ih]
    simp only [List.forall_mem_append, List.forall_mem_singleton]
    tauto

lemma since_unique (h : Since ends event history) (h' : Since ends event' history) (he : ends event)
    (he' : ends event') : event = event' := by
  induction history using List.reverseRecOn with
  | nil => exact absurd h since_nil
  | append_singleton history x ih =>
    rcases since_concat.mp h with rfl | ⟨h, hx⟩ <;> rcases since_concat.mp h' with rfl | ⟨h', hx'⟩
    · rfl
    · exact absurd he hx'
    · exact absurd he' hx
    · exact ih h h'

lemma exists_since (h : ∃ x ∈ history, ends x) : ∃ event, ends event ∧ Since ends event history := by
  induction history using List.reverseRecOn with
  | nil => simp at h
  | append_singleton history x ih =>
    by_cases hx : ends x
    · exact ⟨x, hx, since_concat.mpr (Or.inl rfl)⟩
    · obtain ⟨y, hy, hends⟩ := h
      have hy : y ∈ history := by
        rcases List.mem_append.mp hy with hy | hy
        · exact hy
        · exact absurd (List.mem_singleton.mp hy ▸ hends) hx
      obtain ⟨event, hevent, hsince⟩ := ih ⟨y, hy, hends⟩
      exact ⟨event, hevent, since_concat.mpr (Or.inr ⟨hsince, hx⟩)⟩

end Since

section Reached

variable {σ ι : Type*} {step : σ → ι → Option σ} {s s' r : σ} {op : ι} {ops history : List ι}
  {P E : List ι → σ → Prop} {C : List ι → σ → ι → Prop}

lemma foldlM_concat :
    (history ++ [op]).foldlM step s = some s' ↔ ∃ r, history.foldlM step s = some r ∧ step r op = some s' := by
  rw [List.foldlM_append]
  simp [Option.bind_eq_some_iff]

/-- The states of a run have a property of their histories. -/
def AllReached (step : σ → ι → Option σ) (E : List ι → σ → Prop) (s : σ) (ops : List ι) : Prop :=
  ∀ before after r, ops = before ++ after → before.foldlM step s = some r → E before r

/-- The operations that a run performs meet a condition on the history and the state they are performed in. -/
def AllPerformed (step : σ → ι → Option σ) (C : List ι → σ → ι → Prop) (s : σ) (ops : List ι) : Prop :=
  ∀ before op after r r', ops = before ++ op :: after → before.foldlM step s = some r → step r op = some r' →
    C before r op

lemma allReached_of_step (hs : E [] s)
    (hstep : ∀ before op after r r', ops = before ++ op :: after → before.foldlM step s = some r → E before r →
      step r op = some r' → E (before ++ [op]) r') :
    AllReached step E s ops := by
  intro before
  induction before using List.reverseRecOn with
  | nil =>
    intro after r _ hr
    cases hr
    exact hs
  | append_singleton before op ih =>
    intro after r' heq hr'
    obtain ⟨r, hr, hop⟩ := foldlM_concat.mp hr'
    have heq : ops = before ++ op :: after := by rw [heq, List.append_assoc]; rfl
    exact hstep before op after r r' heq hr (ih (op :: after) r heq hr) hop

lemma allReached_iff_allPerformed (hs : P [] s) (hE : ∀ history s, P history s → E history s)
    (hkeep : ∀ history s op s', P history s → step s op = some s' → C history s op → P (history ++ [op]) s')
    (hneed : ∀ history s op s', P history s → step s op = some s' → E (history ++ [op]) s' → C history s op) :
    AllReached step E s ops ↔ AllPerformed step C s ops := by
  have hnext : ∀ before op after r r', ops = before ++ op :: after → before.foldlM step s = some r →
      step r op = some r' → ops = (before ++ [op]) ++ after ∧ (before ++ [op]).foldlM step s = some r' := by
    intro before op after r r' heq hr hop
    exact ⟨by rw [heq, List.append_assoc]; rfl, foldlM_concat.mpr ⟨r, hr, hop⟩⟩
  constructor
  · intro hall
    have hinv : AllReached step P s ops := allReached_of_step hs fun before op after r r' heq hr hP hop => by
      obtain ⟨heq', hr'⟩ := hnext before op after r r' heq hr hop
      exact hkeep before r op r' hP hop (hneed before r op r' hP hop (hall _ after r' heq' hr'))
    intro before op after r r' heq hr hop
    obtain ⟨heq', hr'⟩ := hnext before op after r r' heq hr hop
    exact hneed before r op r' (hinv before (op :: after) r heq hr) hop (hall _ after r' heq' hr')
  · intro hall
    have hinv : AllReached step P s ops := allReached_of_step hs fun before op after r r' heq hr hP hop =>
      hkeep before r op r' hP hop (hall before op after r r' heq hr hop)
    intro before after r heq hr
    exact hE before r (hinv before after r heq hr)

end Reached

end Arweave.Lib

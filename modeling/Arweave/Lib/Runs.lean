import Mathlib.Data.List.Basic

/-!
# Runs

A run performs operations one after another and ends at the first one that fails.
-/

namespace Arweave.Lib

variable {σ ι : Type*} {step : σ → ι → Option σ} {P : σ → Prop} {C : σ → ι → Prop} {s s' : σ} {ops : List ι}

/-- Every operation of a run satisfies a condition in the state where it is performed. -/
def Along (step : σ → ι → Option σ) (C : σ → ι → Prop) (s : σ) (ops : List ι) : Prop :=
  ∀ before op after r, ops = before ++ op :: after → before.foldlM step s = some r → C r op

lemma along_nil : Along step C s [] := by
  intro before op after r heq
  simp at heq

lemma along_cons {op : ι} : Along step C s (op :: ops) ↔ C s op ∧ ∀ s1, step s op = some s1 → Along step C s1 ops := by
  constructor
  · intro h
    refine ⟨h [] op ops s rfl rfl, ?_⟩
    intro s1 hs1 before op' after r heq hbefore
    apply h (op :: before) op' after r (by rw [heq]; rfl)
    rw [List.foldlM_cons, hs1]
    exact hbefore
  · rintro ⟨hfirst, hrest⟩ before op' after r heq hbefore
    cases before with
    | nil =>
      obtain ⟨rfl, -⟩ := List.cons.inj heq
      cases hbefore
      exact hfirst
    | cons op1 before =>
      obtain ⟨rfl, htail⟩ := List.cons.inj heq
      rw [List.foldlM_cons] at hbefore
      obtain ⟨s1, hs1, hbefore⟩ := Option.bind_eq_some_iff.mp hbefore
      exact hrest s1 hs1 before op' after r htail hbefore

/-- A test of a condition along a run. -/
def checkAlong (step : σ → ι → Option σ) (c : σ → ι → Bool) : σ → List ι → Bool
  | _, [] => true
  | s, op :: ops => c s op && (step s op).all (checkAlong step c · ops)

lemma along_of_checkAlong {c : σ → ι → Bool} (hc : ∀ s op, c s op = true → C s op)
    (h : checkAlong step c s ops = true) : Along step C s ops := by
  induction ops generalizing s with
  | nil => exact along_nil
  | cons op ops ih =>
    rw [checkAlong, Bool.and_eq_true] at h
    refine along_cons.mpr ⟨hc s op h.1, fun s1 hs1 => ih ?_⟩
    have hrest := h.2
    rw [hs1] at hrest
    exact hrest

lemma Along.and {D : σ → ι → Prop} (h : Along step C s ops) (h' : Along step D s ops) :
    Along step (fun s op => C s op ∧ D s op) s ops :=
  fun before op after r heq hbefore => ⟨h before op after r heq hbefore, h' before op after r heq hbefore⟩

lemma Along.take (h : Along step C s ops) (n : Nat) : Along step C s (ops.take n) := by
  intro before op after r heq hbefore
  refine h before op (after ++ ops.drop n) r ?_ hbefore
  rw [← List.cons_append, ← List.append_assoc, ← heq, List.take_append_drop]

lemma Along.append {rest : List ι} (h : Along step C s ops) (hrest : ∀ op ∈ rest, ∀ s, C s op) :
    Along step C s (ops ++ rest) := by
  intro before op after r heq hbefore
  obtain ⟨mid, rfl, hmid⟩ | ⟨mid, hops, hmid⟩ := List.append_eq_append_iff.mp heq
  · exact hrest op (by rw [hmid]; simp) r
  · cases mid with
    | nil => exact hrest op (by rw [← List.nil_append rest, ← hmid]; simp) r
    | cons op' mid =>
      obtain ⟨rfl, -⟩ := List.cons.inj hmid
      exact h before op mid r hops hbefore

lemma foldlM_invariant (hinit : P s)
    (hstep : ∀ s op s', op ∈ ops → P s → C s op → step s op = some s' → P s')
    (hcond : Along step C s ops) (hrun : ops.foldlM step s = some s') : P s' := by
  induction ops generalizing s with
  | nil =>
    cases hrun
    exact hinit
  | cons op ops ih =>
    rw [List.foldlM_cons] at hrun
    obtain ⟨s1, hs1, hrest⟩ := Option.bind_eq_some_iff.mp hrun
    obtain ⟨hfirst, hcond⟩ := along_cons.mp hcond
    apply ih (hstep s op s1 (by simp) hinit hfirst hs1) _ (hcond s1 hs1) hrest
    intro s op' s' hmem
    exact hstep s op' s' (by simp [hmem])

lemma forall_reached_iff_along (hs : P s) (hstep : ∀ s op, P s → ((∀ s', step s op = some s' → P s') ↔ C s op)) :
    (∀ before after r, ops = before ++ after → before.foldlM step s = some r → P r) ↔ Along step C s ops := by
  induction ops generalizing s with
  | nil =>
    refine ⟨fun _ => along_nil, fun _ before after r heq hbefore => ?_⟩
    obtain ⟨rfl, -⟩ := List.append_eq_nil_iff.mp heq.symm
    cases hbefore
    exact hs
  | cons op ops ih =>
    rw [along_cons, ← hstep s op hs]
    constructor
    · intro h
      have hfirst : ∀ s', step s op = some s' → P s' :=
        fun s' hs' => h [op] ops s' rfl (by rw [List.foldlM_cons, hs']; rfl)
      refine ⟨hfirst, fun s1 hs1 => (ih (hfirst s1 hs1)).mp fun before after r heq hbefore => ?_⟩
      exact h (op :: before) after r (by rw [heq]; rfl) (by rw [List.foldlM_cons, hs1]; exact hbefore)
    · rintro ⟨hfirst, hrest⟩ before after r heq hbefore
      cases before with
      | nil =>
        cases hbefore
        exact hs
      | cons op' before =>
        obtain ⟨rfl, htail⟩ := List.cons.inj heq
        rw [List.foldlM_cons] at hbefore
        obtain ⟨s1, hs1, hbefore⟩ := Option.bind_eq_some_iff.mp hbefore
        exact (ih (hfirst s1 hs1)).mpr (hrest s1 hs1) before after r htail hbefore

lemma forall_runs_iff_along (hs : P s) (hstep : ∀ s op, P s → ((∃ s', step s op = some s' ∧ P s') ↔ C s op)) :
    (∀ before after, ops = before ++ after → ∃ r, before.foldlM step s = some r ∧ P r) ↔ Along step C s ops := by
  induction ops generalizing s with
  | nil =>
    refine ⟨fun _ => along_nil, fun _ before after heq => ?_⟩
    obtain ⟨rfl, -⟩ := List.append_eq_nil_iff.mp heq.symm
    exact ⟨s, rfl, hs⟩
  | cons op ops ih =>
    rw [along_cons, ← hstep s op hs]
    constructor
    · intro h
      obtain ⟨s1, hs1, hP⟩ := h [op] ops rfl
      have hs1 : step s op = some s1 := by simpa using hs1
      refine ⟨⟨s1, hs1, hP⟩, fun s' hs' => ?_⟩
      cases hs1.symm.trans hs'
      refine (ih hP).mp fun before after heq => ?_
      obtain ⟨r, hr, hPr⟩ := h (op :: before) after (by rw [heq]; rfl)
      rw [List.foldlM_cons, hs1] at hr
      exact ⟨r, hr, hPr⟩
    · rintro ⟨⟨s1, hs1, hP⟩, hrest⟩ before after heq
      cases before with
      | nil => exact ⟨s, rfl, hs⟩
      | cons op' before =>
        obtain ⟨rfl, htail⟩ := List.cons.inj heq
        rw [List.foldlM_cons, hs1]
        exact (ih hP).mpr (hrest s1 hs1) before after htail

lemma mapM_eq_some_iff {α β : Type*} {f : α → Option β} {p : α → Prop} {g : α → β} {l : List α} {ys : List β}
    (hf : ∀ x y, f x = some y ↔ p x ∧ g x = y) :
    l.mapM f = some ys ↔ (∀ x ∈ l, p x) ∧ l.map g = ys := by
  induction l generalizing ys with
  | nil => simp
  | cons x l ih =>
    simp only [List.mapM_cons, bind, Option.bind_eq_some_iff, hf, ih, pure, Option.some.injEq,
      List.forall_mem_cons, List.map_cons]
    constructor
    · rintro ⟨_, ⟨hx, rfl⟩, _, ⟨hl, rfl⟩, rfl⟩
      exact ⟨⟨hx, hl⟩, rfl⟩
    · rintro ⟨⟨hx, hl⟩, rfl⟩
      exact ⟨_, ⟨hx, rfl⟩, _, ⟨hl, rfl⟩, rfl⟩

lemma foldlM_preserves (hinit : P s) (hstep : ∀ s op s', op ∈ ops → P s → step s op = some s' → P s')
    (hrun : ops.foldlM step s = some s') : P s' :=
  foldlM_invariant (C := fun _ _ => True) hinit (fun s op s' hop h _ => hstep s op s' hop h) (fun _ _ _ _ _ _ => trivial) hrun

end Arweave.Lib

import Mathlib.Algebra.BigOperators.Group.List.Basic
import Mathlib.Data.List.Pairwise
import Mathlib.Tactic.Ring

/-!
# Items that are padded to a multiple

Items are placed one after another. When the size of an item is no multiple of `c`, the place behind
it up to the next multiple stays empty, so that every item starts at a multiple.
-/

namespace Arweave.Lib.Padding

/-- The least multiple of `c` that is not below `n`. -/
def roundUp (c n : Int) : Int := (n + c - 1) / c * c

section RoundUp

variable {c n : Int}

lemma dvd_roundUp : c ∣ roundUp c n := Dvd.intro_left _ rfl

lemma roundUp_bounds (hc : 0 < c) : n ≤ roundUp c n ∧ roundUp c n < n + c := by
  have hmod := Int.emod_nonneg (n + c - 1) hc.ne'
  have hlt := Int.emod_lt_of_pos (n + c - 1) hc
  have hdiv := Int.emod_add_mul_ediv (n + c - 1) c
  rw [mul_comm] at hdiv
  rw [roundUp]
  constructor
  · omega
  · omega

lemma roundUp_eq_self (hc : 0 < c) (h : c ∣ n) : roundUp c n = n := by
  have hbounds := roundUp_bounds (n := n) hc
  have hdvd : c ∣ roundUp c n - n := Int.dvd_sub dvd_roundUp h
  have hzero := Int.eq_zero_of_dvd_of_nonneg_of_lt (by omega) (by omega) hdvd
  omega

end RoundUp

/-- A place from one offset to another, with an item or empty. -/
structure Piece (α : Type*) where
  start : Int
  stop : Int
  item : Option α

variable {α : Type*} {c lo hi : Int} {size : α → Int} {l : List α} {ps qs : List (Piece α)} {p : Piece α}

/-- The places behind an item up to the next multiple. -/
def gap (α : Type*) (c stop : Int) : List (Piece α) :=
  if c ∣ stop then [] else [⟨stop, roundUp c stop, none⟩]

/-- The items of the list, placed from an offset on. -/
def place (c : Int) (size : α → Int) : Int → List α → List (Piece α)
  | _, [] => []
  | lo, x :: l => ⟨lo, lo + size x, some x⟩ :: (gap α c (lo + size x) ++ place c size (roundUp c (lo + size x)) l)

/-- The places follow one another from the first offset to the second. -/
def Covers : List (Piece α) → Int → Int → Prop
  | [], lo, hi => lo = hi
  | p :: ps, lo, hi => p.start = lo ∧ p.start ≤ p.stop ∧ Covers ps p.stop hi

/-- The items start at multiples, and the empty places are the rests up to the next multiple. -/
structure Padded (c : Int) (ps : List (Piece α)) : Prop where
  start_dvd : ∀ p ∈ ps, p.item ≠ none → c ∣ p.start
  filled : ∀ p ∈ ps, c ∣ p.stop ∨ ∃ q ∈ ps, q.item = none ∧ q.start = p.stop
  empty : ∀ q ∈ ps, q.item = none → ¬ c ∣ q.start ∧ q.stop = roundUp c q.start ∧
    ∃ p ∈ ps, p.item ≠ none ∧ p.stop = q.start

namespace Covers

lemma append {mid : Int} (h : Covers ps lo mid) (h' : Covers qs mid hi) : Covers (ps ++ qs) lo hi := by
  induction ps generalizing lo with
  | nil =>
    obtain rfl : lo = mid := h
    exact h'
  | cons p ps ih => exact ⟨h.1, h.2.1, ih h.2.2⟩

lemma le (h : Covers ps lo hi) : lo ≤ hi := by
  induction ps generalizing lo with
  | nil => exact le_of_eq h
  | cons p ps ih =>
    obtain ⟨rfl, hle, hrest⟩ := h
    exact hle.trans (ih hrest)

lemma pairwise_stop (h : Covers ps lo hi) : (lo :: ps.map Piece.stop).Pairwise (· ≤ ·) := by
  induction ps generalizing lo with
  | nil => exact List.pairwise_singleton _ _
  | cons p ps ih =>
    obtain ⟨rfl, hle, hrest⟩ := h
    have hpairs := ih hrest
    rw [List.map_cons, List.pairwise_cons]
    refine ⟨fun x hx => ?_, hpairs⟩
    rcases List.mem_cons.mp hx with rfl | hx
    · exact hle
    · exact hle.trans ((List.pairwise_cons.mp hpairs).1 x hx)

lemma getLast_stop (h : Covers ps lo hi) : (ps.getLast?.map Piece.stop).getD lo = hi := by
  induction ps generalizing lo with
  | nil => exact h
  | cons p ps ih =>
    have hrest := ih h.2.2
    cases ps with
    | nil => exact hrest
    | cons q ps =>
      rw [List.getLast?_eq_some_getLast (List.cons_ne_nil q ps)] at hrest
      rw [List.getLast?_cons_cons, List.getLast?_eq_some_getLast (List.cons_ne_nil q ps)]
      exact hrest

end Covers

lemma Padded.append (h : Padded c ps) (h' : Padded c qs) : Padded c (ps ++ qs) where
  start_dvd p hp hitem := (List.mem_append.mp hp).elim (fun hp => h.start_dvd p hp hitem) fun hp => h'.start_dvd p hp hitem
  filled p hp := by
    rcases List.mem_append.mp hp with hp | hp
    · exact (h.filled p hp).imp id fun ⟨q, hq, hfill⟩ => ⟨q, List.mem_append_left _ hq, hfill⟩
    · exact (h'.filled p hp).imp id fun ⟨q, hq, hfill⟩ => ⟨q, List.mem_append_right _ hq, hfill⟩
  empty q hq hitem := by
    rcases List.mem_append.mp hq with hq | hq
    · obtain ⟨hstart, hstop, p, hp, hbefore⟩ := h.empty q hq hitem
      exact ⟨hstart, hstop, p, List.mem_append_left _ hp, hbefore⟩
    · obtain ⟨hstart, hstop, p, hp, hbefore⟩ := h'.empty q hq hitem
      exact ⟨hstart, hstop, p, List.mem_append_right _ hp, hbefore⟩

lemma padded_cons_gap {x : α} (hlo : c ∣ lo) :
    Padded c (⟨lo, hi, some x⟩ :: gap α c hi) := by
  rw [gap]
  split_ifs with hdvd
  · exact ⟨by simpa using hlo, by simp [hdvd], by simp⟩
  · refine ⟨by simpa using hlo, ?_, by simp [hdvd]⟩
    simp [hdvd, dvd_roundUp]

lemma covers_cons_gap {x : α} (hc : 0 < c) (hle : lo ≤ hi) :
    Covers (⟨lo, hi, some x⟩ :: gap α c hi) lo (roundUp c hi) := by
  refine ⟨rfl, hle, ?_⟩
  rw [gap]
  split_ifs with hdvd
  · exact (roundUp_eq_self hc hdvd).symm
  · exact ⟨rfl, (roundUp_bounds hc).1, rfl⟩

/-- The offset behind all items. -/
def extent (c : Int) (size : α → Int) (l : List α) : Int := (l.map fun x => roundUp c (size x)).sum

lemma roundUp_add (hc : 0 < c) (hlo : c ∣ lo) (n : Int) : roundUp c (lo + n) = lo + roundUp c n := by
  obtain ⟨k, rfl⟩ := hlo
  have hshift : c * k + n + c - 1 = n + c - 1 + k * c := by ring
  rw [roundUp, roundUp, hshift, Int.add_mul_ediv_right _ _ hc.ne']
  ring

theorem place_spec (hc : 0 < c) (hsize : ∀ x ∈ l, 0 ≤ size x) (hlo : c ∣ lo) :
    Covers (place c size lo l) lo (lo + extent c size l) ∧ Padded c (place c size lo l) := by
  induction l generalizing lo with
  | nil => exact ⟨(add_zero lo).symm, by simp [place], by simp [place], by simp [place]⟩
  | cons x l ih =>
    have hx := hsize x List.mem_cons_self
    have hrest := ih (fun y hy => hsize y (List.mem_cons_of_mem _ hy)) (dvd_roundUp (c := c) (n := lo + size x))
    have hextent : lo + extent c size (x :: l) = roundUp c (lo + size x) + extent c size l := by
      rw [extent, List.map_cons, List.sum_cons, roundUp_add hc hlo, extent, add_assoc]
    rw [place, ← List.cons_append, hextent]
    exact ⟨(covers_cons_gap hc (by omega)).append hrest.1, (padded_cons_gap hlo).append hrest.2⟩

lemma filterMap_place : (place c size lo l).filterMap (fun p => p.item.map fun x => (x, p.stop - p.start)) =
    l.map fun x => (x, size x) := by
  induction l generalizing lo with
  | nil => rfl
  | cons x l ih =>
    have hgap (stop : Int) : (gap α c stop).filterMap (fun p => p.item.map fun x => (x, p.stop - p.start)) = [] := by
      rw [gap]
      split_ifs <;> rfl
    rw [place, List.filterMap_cons, List.filterMap_append, hgap, ih, List.nil_append, List.map_cons]
    simp only [Option.map_some, add_sub_cancel_left]

end Arweave.Lib.Padding

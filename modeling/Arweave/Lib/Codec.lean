import Arweave.Lib.Bytes

/-!
# Binary patterns

A pattern reads a value from the front of a binary and leaves the rest. What a pattern
guarantees about the length of a field is part of the value that it reads. `Reads p enc x`
says that `p` recovers `x` from `enc` whatever follows. An encoding with such a pattern is
self-delimiting, so that a concatenation of fields determines every field.
-/

namespace Arweave.Lib.Codec

/-- A binary of `n` bytes. -/
abbrev Fixed (n : Nat) := {b : Bytes // b.length = n}

/-- A binary whose length fits in `w` bytes. -/
abbrev Sized (w : Nat) := {b : Bytes // b.length < 256 ^ w}

abbrev Pattern := StateT Bytes Option

/-- The next `n` bytes. -/
def fixed (n : Nat) : Pattern (Fixed n) := fun s =>
  if h : n ≤ s.length then some (⟨s.take n, List.length_take_of_le h⟩, s.drop n) else none

lemma Fixed.toNat_lt {n : Nat} (b : Fixed n) : Bytes.toNat b.1 < 256 ^ n := by
  have h := Bytes.toNat_lt b.1
  rwa [b.2] at h

/-- A size in `w` bytes and then as many bytes. -/
def sized (w : Nat) : Pattern (Sized w) := do
  let size ← fixed w
  let b ← fixed (Bytes.toNat size.1)
  return ⟨b.1, b.2.symm ▸ size.toNat_lt⟩

/-- A count in `w` bytes and then as many pieces of `k` bytes. -/
def chunked (w k : Nat) : Pattern {p : Nat × Bytes // p.1 < 256 ^ w ∧ p.2.length = p.1 * k} := do
  let count ← fixed w
  let b ← fixed (Bytes.toNat count.1 * k)
  return ⟨(Bytes.toNat count.1, b.1), count.toNat_lt, b.2⟩

/-- The pieces of `k` bytes of a binary, when its length is a multiple of `k`. -/
def pieces (k : Nat) : Nat → Bytes → Option (List Bytes)
  | _, [] => some []
  | 0, _ :: _ => none
  | fuel + 1, x :: b =>
    match (fixed k).run (x :: b) with
    | some (piece, rest) => (piece.1 :: ·) <$> pieces k fuel rest
    | none => none

/-- The pattern as many times as given. -/
def times {α : Type} (p : Pattern α) : Nat → Pattern (List α)
  | 0 => return []
  | n + 1 => do
    let x ← p
    let l ← times p n
    return x :: l

/-- A count in `w` bytes and then as many elements. -/
def listOf {α : Type} (w : Nat) (p : Pattern α) : Pattern (List α) := do
  let count ← fixed w
  times p (Bytes.toNat count.1)

/-- Whatever the pattern reads has the property. -/
def Yields {α : Type} (P : α → Prop) (p : Pattern α) : Prop :=
  ∀ s x rest, p.run s = some (x, rest) → P x

namespace Yields

variable {α β : Type} {P : β → Prop}

lemma pure {x : β} (h : P x) : Yields P (pure x) := by
  rintro s y rest ⟨⟩
  exact h

lemma bind {p : Pattern α} {f : α → Pattern β} (h : ∀ a, Yields P (f a)) : Yields P (p >>= f) := by
  intro s y rest hrun
  rw [StateT.run_bind] at hrun
  obtain ⟨⟨a, t⟩, -, hf⟩ := Option.bind_eq_some_iff.mp hrun
  exact h a t y rest hf

end Yields

/-- The pattern reads the encoding as the value and leaves what follows. -/
def Reads {α : Type} (p : Pattern α) (enc : Bytes) (x : α) : Prop :=
  ∀ rest, p.run (enc ++ rest) = some (x, rest)

namespace Reads

variable {α β : Type} {p : Pattern α} {f : α → Pattern β} {a b : Bytes} {x x' : α} {y : β}

lemma pure (x : α) : Reads (pure x) [] x := fun _ => rfl

lemma bind (hp : Reads p a x) (hf : Reads (f x) b y) : Reads (p >>= f) (a ++ b) y := by
  intro rest
  rw [StateT.run_bind, List.append_assoc, hp (b ++ rest)]
  exact hf rest

lemma bind_pure {g : α → β} (hp : Reads p a x) : Reads (p >>= fun z => Pure.pure (g z)) a (g x) := by
  have h := hp.bind (f := fun z => Pure.pure (g z)) (Reads.pure (g x))
  rwa [List.append_nil] at h

/-- Two values that one pattern reads are told apart by their encodings. -/
theorem eq_of_append_eq (h : Reads p a x) (h' : Reads p b x') {s t : Bytes} (heq : a ++ s = b ++ t) :
    x = x' ∧ s = t := by
  have hs := h s
  rw [heq, h' t] at hs
  simpa [eq_comm] using hs

theorem injective (h : Reads p a x) (h' : Reads p a x') : x = x' :=
  (h.eq_of_append_eq h' (s := []) rfl).1

end Reads

lemma reads_fixed {n : Nat} (b : Fixed n) : Reads (fixed n) b.1 b := by
  intro rest
  obtain ⟨b, rfl⟩ := b
  simp [fixed, StateT.run]

lemma reads_sized {w : Nat} (b : Sized w) :
    Reads (sized w) (Bytes.ofNat w b.1.length ++ b.1) b := by
  have hsize : Bytes.toNat (Bytes.ofNat w b.1.length) = b.1.length := Bytes.toNat_ofNat_of_lt b.2
  refine (reads_fixed ⟨Bytes.ofNat w b.1.length, Bytes.length_ofNat _ _⟩).bind ?_
  exact (reads_fixed ⟨b.1, hsize.symm⟩).bind_pure

section Run

variable {α β : Type} {p : Pattern α} {f : α → Pattern β} {n w : Nat} {s rest : Bytes}

lemma run_bind_eq_some {y : β} :
    (p >>= f).run s = some (y, rest) ↔ ∃ x t, p.run s = some (x, t) ∧ (f x).run t = some (y, rest) := by
  rw [StateT.run_bind]
  constructor
  · intro hrun
    obtain ⟨⟨x, t⟩, hp, hf⟩ := Option.bind_eq_some_iff.mp hrun
    exact ⟨x, t, hp, hf⟩
  · rintro ⟨x, t, hp, hf⟩
    rw [hp]
    exact hf

lemma run_pure_eq_some {x y : α} :
    (pure x : Pattern α).run s = some (y, rest) ↔ x = y ∧ s = rest := by
  rw [StateT.run_pure]
  simp

lemma run_fixed_eq_some {b : Fixed n} : (fixed n).run s = some (b, rest) ↔ s = b.1 ++ rest := by
  constructor
  · intro hrun
    rw [StateT.run, fixed] at hrun
    split_ifs at hrun
    obtain ⟨rfl, rfl⟩ := Prod.mk.inj (Option.some.inj hrun)
    exact (List.take_append_drop n s).symm
  · rintro rfl
    exact reads_fixed b rest

lemma run_sized_eq_some {b : Sized w} :
    (sized w).run s = some (b, rest) ↔ s = Bytes.ofNat w b.1.length ++ b.1 ++ rest := by
  constructor
  · intro hrun
    obtain ⟨size, t, hsize, hrun⟩ := run_bind_eq_some.mp hrun
    obtain ⟨c, u, hc, hrun⟩ := run_bind_eq_some.mp hrun
    obtain ⟨hb, rfl⟩ := run_pure_eq_some.mp hrun
    have hval : c.1 = b.1 := congrArg Subtype.val hb
    rw [run_fixed_eq_some.mp hsize, run_fixed_eq_some.mp hc, ← hval, c.2, List.append_assoc]
    congr 1
    have h := Bytes.ofNat_toNat size.1
    rw [size.2] at h
    exact h.symm
  · rintro rfl
    exact reads_sized b rest

end Run

lemma length_flatten_of_forall {k : Nat} {l : List Bytes} (h : ∀ b ∈ l, b.length = k) :
    l.flatten.length = l.length * k := by
  induction l with
  | nil => simp
  | cons b l ih =>
    rw [List.flatten_cons, List.length_append, h b List.mem_cons_self,
      ih fun c hc => h c (List.mem_cons_of_mem _ hc), List.length_cons, Nat.succ_mul, Nat.add_comm]

lemma reads_chunked {w k : Nat} {l : List Bytes} (hl : l.length < 256 ^ w) (hk : ∀ b ∈ l, b.length = k) :
    Reads (chunked w k) (Bytes.ofNat w l.length ++ l.flatten)
      ⟨(l.length, l.flatten), hl, length_flatten_of_forall hk⟩ := by
  have hcount : Bytes.toNat (Bytes.ofNat w l.length) = l.length := Bytes.toNat_ofNat_of_lt hl
  have hlen : l.flatten.length = Bytes.toNat (Bytes.ofNat w l.length) * k := by
    rw [hcount, length_flatten_of_forall hk]
  have hvalue : (⟨(Bytes.toNat (Bytes.ofNat w l.length), l.flatten), by rw [hcount]; exact hl, hlen⟩ :
      {p : Nat × Bytes // p.1 < 256 ^ w ∧ p.2.length = p.1 * k}) =
        ⟨(l.length, l.flatten), hl, length_flatten_of_forall hk⟩ := Subtype.ext (Prod.ext hcount rfl)
  rw [← hvalue]
  exact (reads_fixed ⟨_, Bytes.length_ofNat _ _⟩).bind (reads_fixed ⟨l.flatten, hlen⟩).bind_pure

lemma reads_times {α : Type} {p : Pattern α} {enc : α → Bytes} {l : List α}
    (h : ∀ x ∈ l, Reads p (enc x) x) : Reads (times p l.length) (l.flatMap enc) l := by
  induction l with
  | nil => exact Reads.pure []
  | cons x l ih =>
    rw [List.flatMap_cons]
    exact (h x List.mem_cons_self).bind (ih fun y hy => h y (List.mem_cons_of_mem _ hy)).bind_pure

lemma reads_listOf {α : Type} {w : Nat} {p : Pattern α} {enc : α → Bytes} {l : List α}
    (hl : l.length < 256 ^ w) (h : ∀ x ∈ l, Reads p (enc x) x) :
    Reads (listOf w p) (Bytes.ofNat w l.length ++ l.flatMap enc) l := by
  have hcount : Bytes.toNat (Bytes.ofNat w l.length) = l.length := Bytes.toNat_ofNat_of_lt hl
  refine (reads_fixed ⟨_, Bytes.length_ofNat w l.length⟩).bind ?_
  rw [hcount]
  exact reads_times h

lemma pieces_flatten {k fuel : Nat} {l : List Bytes} (hk : 0 < k) (hl : ∀ b ∈ l, b.length = k)
    (hfuel : l.flatten.length ≤ fuel) : pieces k fuel l.flatten = some l := by
  induction l generalizing fuel with
  | nil => cases fuel <;> rfl
  | cons b l ih =>
    have hb := hl b List.mem_cons_self
    rw [List.flatten_cons, List.length_append, hb] at hfuel
    obtain ⟨fuel, rfl⟩ : ∃ n, fuel = n + 1 := Nat.exists_eq_succ_of_ne_zero (by omega)
    have hread := reads_fixed ⟨b, hb⟩ l.flatten
    obtain ⟨x, s, hs⟩ := List.exists_cons_of_length_pos (l := b ++ l.flatten) (by
      rw [List.length_append]
      omega)
    rw [List.flatten_cons, hs, pieces, ← hs, hread]
    simp only
    rw [ih (fun c hc => hl c (List.mem_cons_of_mem _ hc)) (by omega)]
    rfl

end Arweave.Lib.Codec

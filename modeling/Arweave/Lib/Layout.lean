import Arweave.Lib.Codec

/-!
# Sequences of entries

A layout is a pattern whose fields are determined by the bytes that it takes off, so that a
binary is cut into entries in one way at most. A writer that puts each entry in front of those
before it and a reader that does the same with what it has read turn a list around twice.
-/

namespace Arweave.Lib.Codec

/-- Fields and the bytes that they are read from. -/
structure Layout (ρ : Type) where
  fields : Pattern ρ
  bytes : ρ → Bytes
  run_eq_some : ∀ {s r rest}, fields.run s = some (r, rest) ↔ s = bytes r ++ rest
  bytes_ne_nil : ∀ r, bytes r ≠ []

section Entries

variable {ρ α ε : Type}

/-- Each entry is put in front of what has been written. -/
def entriesToBinaryFrom (encode : α → Option Bytes) : List α → Bytes → Option Bytes
  | [], encoded => some encoded
  | x :: l, encoded => do
    let bin ← encode x
    entriesToBinaryFrom encode l (bin ++ encoded)

/-- Entries are read until nothing is left, and each is put in front of those that have been
read. An entry has one byte at least. -/
def binaryToEntriesFrom (fields : Pattern ρ) (value : ρ → α) (reason : ε) :
    Nat → Bytes → List α → Except ε (List α)
  | _, [], l => .ok l
  | 0, _ :: _, _ => .error reason
  | fuel + 1, x :: bin, l =>
    match fields.run (x :: bin) with
    | some (r, rest) => binaryToEntriesFrom fields value reason fuel rest (value r :: l)
    | none => .error reason

variable {encode : α → Option Bytes} {value : ρ → α} {reason : ε} {rows rows2 : List ρ} {bin encoded : Bytes}
  {f : ρ → Bytes} {l V : List α}

lemma entriesToBinaryFrom_map (h : ∀ r ∈ rows, encode (value r) = some (f r)) :
    entriesToBinaryFrom encode (rows.map value) encoded = some (rows.reverse.flatMap f ++ encoded) := by
  induction rows generalizing encoded with
  | nil => rfl
  | cons r rows ih =>
    rw [List.map_cons, entriesToBinaryFrom, h r List.mem_cons_self, Option.bind_eq_bind, Option.bind_some,
      ih fun r hr => h r (List.mem_cons_of_mem _ hr), List.reverse_cons, List.flatMap_append,
      List.flatMap_singleton, List.append_assoc]

namespace Layout

variable (L : Layout ρ)

lemma flatMap_eq_nil_iff : rows.flatMap L.bytes = [] ↔ rows = [] := by
  cases rows with
  | nil => simp
  | cons r rows => simp [L.bytes_ne_nil r]

lemma append_inj {r r2 : ρ} {s t : Bytes} (h : L.bytes r ++ s = L.bytes r2 ++ t) : r = r2 ∧ s = t := by
  have h1 := L.run_eq_some.mpr h
  have h2 : L.fields.run (L.bytes r ++ s) = some (r, s) := L.run_eq_some.mpr rfl
  rw [h2] at h1
  exact Prod.mk.inj (Option.some.inj h1)

theorem flatMap_injective (h : rows.flatMap L.bytes = rows2.flatMap L.bytes) : rows = rows2 := by
  induction rows generalizing rows2 with
  | nil => exact (L.flatMap_eq_nil_iff.mp h.symm).symm
  | cons r rows ih =>
    cases rows2 with
    | nil => exact L.flatMap_eq_nil_iff.mp h
    | cons r2 rows2 =>
      rw [List.flatMap_cons, List.flatMap_cons] at h
      obtain ⟨rfl, hrest⟩ := L.append_inj h
      rw [ih hrest]

/-- The reader accepts the sequences of entries, and returns their values from the last to the
first. -/
theorem binaryToEntriesFrom_eq_ok_iff {fuel : Nat} (hfuel : bin.length ≤ fuel) :
    binaryToEntriesFrom L.fields value reason fuel bin l = .ok V ↔
      ∃ rows : List ρ, bin = rows.flatMap L.bytes ∧ V = (rows.map value).reverse ++ l := by
  induction fuel generalizing bin l with
  | zero =>
    obtain rfl := List.length_eq_zero_iff.mp (Nat.le_zero.mp hfuel)
    rw [binaryToEntriesFrom, Except.ok.injEq]
    constructor
    · rintro rfl
      exact ⟨[], rfl, rfl⟩
    · rintro ⟨rows, hrows, rfl⟩
      rw [L.flatMap_eq_nil_iff.mp hrows.symm]
      rfl
  | succ fuel ih =>
    cases bin with
    | nil =>
      rw [binaryToEntriesFrom, Except.ok.injEq]
      constructor
      · rintro rfl
        exact ⟨[], rfl, rfl⟩
      · rintro ⟨rows, hrows, rfl⟩
        rw [L.flatMap_eq_nil_iff.mp hrows.symm]
        rfl
    | cons x bin =>
      rw [binaryToEntriesFrom]
      split
      next r rest hrun =>
        have hbin := L.run_eq_some.mp hrun
        have hpos := List.length_pos_of_ne_nil (L.bytes_ne_nil r)
        have hlen := congrArg List.length hbin
        rw [List.length_append] at hlen
        rw [ih (by omega), hbin]
        constructor
        · rintro ⟨rows, rfl, rfl⟩
          exact ⟨r :: rows, rfl, by simp⟩
        · rintro ⟨rows, hrows, rfl⟩
          cases rows with
          | nil => exact absurd (List.append_eq_nil_iff.mp hrows).1 (L.bytes_ne_nil r)
          | cons r2 rows =>
            obtain ⟨rfl, rfl⟩ := L.append_inj hrows
            exact ⟨rows, rfl, by simp⟩
      next hrun =>
        constructor
        · rintro ⟨⟩
        · rintro ⟨rows, hrows, -⟩
          cases rows with
          | nil => cases hrows
          | cons r rows =>
            rw [L.run_eq_some.mpr hrows] at hrun
            cases hrun

/-- Entries that are written as the layout has them are read back in their order. -/
theorem round_trip (h : ∀ x ∈ V, ∃ r, value r = x ∧ encode x = some (L.bytes r)) :
    ∃ bin, entriesToBinaryFrom encode V [] = some bin ∧
      binaryToEntriesFrom L.fields value reason bin.length bin [] = .ok V := by
  have hrows : ∃ rows : List ρ, rows.map value = V ∧ ∀ r ∈ rows, encode (value r) = some (L.bytes r) := by
    induction V with
    | nil => exact ⟨[], rfl, by simp⟩
    | cons x V ih =>
      obtain ⟨r, rfl, hr⟩ := h x List.mem_cons_self
      obtain ⟨rows, rfl, hrows⟩ := ih fun x hx => h x (List.mem_cons_of_mem _ hx)
      exact ⟨r :: rows, rfl, by simpa [hr] using hrows⟩
  obtain ⟨rows, rfl, hrows⟩ := hrows
  refine ⟨_, entriesToBinaryFrom_map hrows, (L.binaryToEntriesFrom_eq_ok_iff le_rfl).mpr ?_⟩
  exact ⟨rows.reverse, by simp, by simp⟩

/-- What has been read is written back as it was when every entry is written back as it was. -/
theorem entriesToBinaryFrom_eq_iff {canonical : ρ → ρ}
    (h : ∀ r, encode (value r) = some (L.bytes (canonical r))) :
    entriesToBinaryFrom encode (rows.map value).reverse [] = some (rows.flatMap L.bytes) ↔
      ∀ r ∈ rows, canonical r = r := by
  have hwrite : entriesToBinaryFrom encode (rows.map value).reverse [] =
      some ((rows.map canonical).flatMap L.bytes) := by
    rw [← List.map_reverse, entriesToBinaryFrom_map fun r _ => h r, List.reverse_reverse, List.append_nil,
      List.flatMap_map]
  rw [hwrite, Option.some.injEq]
  constructor
  · intro heq r hr
    have hmap : rows.map canonical = rows.map id := by
      rw [L.flatMap_injective heq, List.map_id]
    exact List.map_inj_left.mp hmap r hr
  · intro hall
    rw [List.map_congr_left (g := id) hall, List.map_id]

end Layout

end Entries

end Arweave.Lib.Codec

import Arweave.Merkle.Binding

/-!
# One path under two rulesets

A path that two rulesets accept proves the same chunk under both. The ruleset with rebases reads 32 zero bytes in
front of a node as a mark, the others read them as the first hash of the node. A path that is accepted with both
readings would repeat its first node, of zero bytes, without an end.
-/

namespace Arweave.Merkle
open Arweave.Lib

/-- The marks of a number of nodes. -/
def marks (k : Nat) : Bytes := List.replicate (hashSize * k) 0

lemma marks_succ (k : Nat) : marks (k + 1) = rebaseMark ++ marks k := by
  rw [marks, rebaseMark, marks, List.replicate_append_replicate, Nat.mul_succ, Nat.add_comm]

lemma marks_succ' (k : Nat) : marks (k + 1) = marks k ++ rebaseMark := by
  rw [marks, rebaseMark, marks, List.replicate_append_replicate, Nat.mul_succ]

@[simp] lemma length_marks (k : Nat) : (marks k).length = 32 * k := List.length_replicate

lemma marks_append {k : Nat} {x s s' : Bytes} (hk : 0 < k) (hx : x.length = 32) (h : marks k ++ (x ++ s') = x ++ s) :
    x = rebaseMark ∧ marks k ++ s' = s := by
  obtain ⟨k, rfl⟩ := Nat.exists_eq_add_one_of_ne_zero hk.ne'
  rw [marks_succ, List.append_assoc] at h
  obtain ⟨rfl, hrest⟩ := List.append_inj h.symm (by rw [hx, length_rebaseMark])
  rw [hrest, marks_succ', List.append_assoc]
  exact ⟨rfl, rfl⟩

lemma marks_append_node {k : Nat} {l r note rest rest' : Bytes} (hk : 0 < k) (hl : l.length = 32) (hr : r.length = 32)
    (hnote : note.length = 32) (h : marks k ++ (l ++ (r ++ (note ++ rest'))) = l ++ (r ++ (note ++ rest))) :
    r = l ∧ note = rebaseMark ∧ marks k ++ rest' = rest := by
  obtain ⟨rfl, hright⟩ := marks_append hk hl h
  obtain ⟨rfl, hrest⟩ := marks_append hk hr hright
  exact ⟨rfl, marks_append hk hnote hrest⟩

lemma eq_zero_of_noteToBinary {note : Nat} (hnote : note < 256 ^ noteSize) (h : noteToBinary note = rebaseMark) : note = 0 :=
  Bytes.ofNat_injective_of_lt hnote (by decide) (h.trans (by decide))

lemma splitNode_eq {q l r rest : Bytes} {note : Nat} (hlen : 96 ≤ q.length) (h : splitNode q = (l, r, note, rest)) :
    q = l ++ (r ++ (noteToBinary note ++ rest)) ∧ l.length = 32 ∧ r.length = 32 := by
  rw [splitNode] at h
  cases h
  have hnote : noteToBinary (Bytes.toNat ((q.drop 64).take 32)) = (q.drop 64).take 32 := by
    have hsize : noteSize = ((q.drop 64).take 32).length := by
      rw [List.length_take, List.length_drop, noteSize]
      omega
    rw [noteToBinary, hsize, Bytes.ofNat_toNat]
  refine ⟨?_, by simp; omega, by simp; omega⟩
  have htail := List.take_append_drop 32 (q.drop 64)
  have hmid := List.take_append_drop 32 (q.drop 32)
  rw [List.drop_drop] at htail hmid
  rw [hnote, htail, hmid, List.take_append_drop]

section Segments

variable {allowRebase : Bool} {p data l r rest : Bytes} {endOffset note : Nat}

lemma segment_leaf (h : segment allowRebase p = .leaf data endOffset) :
    p.length = 64 ∧ ∀ allow, segment allow p = .leaf data endOffset := by
  unfold segment splitNode at h
  split_ifs at h with hlen
  refine ⟨hlen, fun allow => ?_⟩
  rw [segment, if_pos hlen, h]

lemma segment_ofNode {marked : Bool} (h : segment allowRebase p = .ofNode marked l r note rest) :
    p.length ≠ 64 ∧ ∃ q, p = (if marked then rebaseMark else []) ++ q ∧
      q = l ++ (r ++ (noteToBinary note ++ rest)) ∧ l.length = 32 ∧ r.length = 32 := by
  unfold segment at h
  split_ifs at h with hlen hmark hnode
  · cases marked <;> cases h
  · refine ⟨hlen, p.drop 32, ?_⟩
    cases marked with
    | false => cases h
    | true =>
      have hsplit : splitNode (p.drop 32) = (l, r, note, rest) := by
        simp only [Segment.ofNode, if_true, Segment.rebase.injEq] at h
        obtain ⟨rfl, rfl, rfl, rfl⟩ := h
        rfl
      refine ⟨?_, splitNode_eq (by rw [List.length_drop]; omega) hsplit⟩
      rw [if_pos rfl, ← hmark.2.2, List.take_append_drop]
  · refine ⟨hlen, p, ?_⟩
    cases marked with
    | true => cases h
    | false =>
      have hsplit : splitNode p = (l, r, note, rest) := by
        simp only [Segment.ofNode, Bool.false_eq_true, if_false, Segment.node.injEq] at h
        obtain ⟨rfl, rfl, rfl, rfl⟩ := h
        rfl
      exact ⟨rfl, splitNode_eq hnode hsplit⟩
  · cases marked <;> cases h

end Segments

section Readings

variable {H : Digest 32} {base rebase : Checks} {dataSize : Int} {id p q : Bytes} {c d : Cursor} {res res' : DataPath}

lemma child_zero {l r : Bytes} (hc : c.Inside) : c.child l r 0 = r :=
  if_neg (not_lt.mpr (hc.left_nonneg.trans hc.left_le))

/-- A node is not accepted both behind a number of marks, taken for hashes, and without them. -/
lemma not_accepted_twice {k : Nat} (hk : 0 < k) (hbase : base.allowRebase = false)
    (hs : H.CollisionFree (hashedStrings H false (marks k ++ q) ++ hashedStrings H rebase.allowRebase q))
    (hc : c.Inside) (hd : d.Inside) (hp : validatePathFrom H base dataSize id c (marks k ++ q) = some res)
    (hq : validatePathFrom H rebase dataSize id d q = some res') : False := by
  induction hn : q.length using Nat.strong_induction_on generalizing id q c d k with
  | _ n ih =>
    obtain ⟨data, e, hsp, -, -, hlp⟩ | ⟨marked, l, r, note, rest, hsp, hidp, hrp⟩ := validatePathFrom_some hp <;>
      obtain ⟨data', e', hsq, -, -, hlq⟩ | ⟨marked', l', r', note', rest', hsq, hidq, hrq⟩ := validatePathFrom_some hq <;>
        rw [hbase] at hsp
    · have hlen := (segment_leaf hsp).1
      have hlen' := (segment_leaf hsq).1
      rw [List.length_append, length_marks] at hlen
      omega
    · rw [hashedStrings_leaf hsp, hashedStrings_node hsq] at hs
      exact leafHash_ne_nodeHash hs (fun x hx => List.mem_append_left _ hx)
        (fun x hx => List.mem_append_right _ (List.mem_append_left _ hx)) ((validateLeaf_some hlp).1.trans hidq.symm)
    · rw [hashedStrings_node hsp, hashedStrings_leaf hsq] at hs
      exact leafHash_ne_nodeHash hs (fun x hx => List.mem_append_right _ hx)
        (fun x hx => List.mem_append_left _ (List.mem_append_left _ hx)) ((validateLeaf_some hlq).1.trans hidp.symm)
    · have hnote := segment_node_lt hsp
      rw [hashedStrings_node hsp, hashedStrings_node hsq] at hs
      obtain ⟨rfl, rfl, rfl⟩ := nodeHash_inj hs hnote (segment_node_lt hsq)
        (fun x hx => List.mem_append_left _ (List.mem_append_left _ hx))
        (fun x hx => List.mem_append_right _ (List.mem_append_left _ hx)) (hidp.trans hidq.symm)
      obtain rfl := segment_unmarked hsp
      obtain ⟨-, p', hp', hpeq, hl, hr⟩ := segment_ofNode hsp
      obtain ⟨-, q', hq', hqeq, -⟩ := segment_ofNode hsq
      -- the reading with marks is the further behind, the more marks it has found
      obtain ⟨k', hk', hmarks⟩ : ∃ k', 0 < k' ∧ marks k ++ q = marks k' ++ q' := by
        rw [hq']
        cases marked' with
        | false => exact ⟨k, hk, rfl⟩
        | true => exact ⟨k + 1, Nat.succ_pos k, by rw [marks_succ', List.append_assoc]; rfl⟩
      rw [hp', hpeq, hqeq] at hmarks
      obtain ⟨rfl, hzero, rfl⟩ := marks_append_node hk' hl hr (length_noteToBinary _) hmarks.symm
      obtain rfl := eq_zero_of_noteToBinary hnote hzero
      rw [child_zero hc] at hrp
      rw [child_zero hd] at hrq
      refine ih rest'.length (hn ▸ segment_ofNode_rest_lt hsq) hk' (hs.mono fun x hx => ?_) (hc.step false 0)
        (hd.step marked' 0) hrp hrq rfl
      obtain hx | hx := List.mem_append.mp hx
      · exact List.mem_append_left _ (List.mem_append_right _ hx)
      · exact List.mem_append_right _ (List.mem_append_right _ hx)

/-- A path that is accepted without and with rebases proves the same chunk. -/
lemma validatePathFrom_agree (hbase : base.allowRebase = false)
    (hs : H.CollisionFree (hashedStrings H false p ++ hashedStrings H rebase.allowRebase p)) (hc : c.Inside)
    (hp : validatePathFrom H base dataSize id c p = some res) (hq : validatePathFrom H rebase dataSize id c p = some res') :
    res = res' := by
  induction hn : p.length using Nat.strong_induction_on generalizing id p c with
  | _ n ih =>
    obtain ⟨data, e, hsp, -, -, hlp⟩ | ⟨marked, l, r, note, rest, hsp, hidp, hrp⟩ := validatePathFrom_some hp <;>
      obtain ⟨data', e', hsq, -, -, hlq⟩ | ⟨marked', l', r', note', rest', hsq, hidq, hrq⟩ := validatePathFrom_some hq <;>
        rw [hbase] at hsp
    · rw [(segment_leaf hsp).2] at hsq
      cases hsq
      rw [hlp] at hlq
      exact Option.some.inj hlq
    · exact absurd (segment_leaf hsp).1 (segment_ofNode hsq).1
    · exact absurd (segment_leaf hsq).1 (segment_ofNode hsp).1
    · have hnote := segment_node_lt hsp
      rw [hashedStrings_node hsp, hashedStrings_node hsq] at hs
      obtain ⟨rfl, rfl, rfl⟩ := nodeHash_inj hs hnote (segment_node_lt hsq)
        (fun x hx => List.mem_append_left _ (List.mem_append_left _ hx))
        (fun x hx => List.mem_append_right _ (List.mem_append_left _ hx)) (hidp.trans hidq.symm)
      have hs' : H.CollisionFree (hashedStrings H false rest ++ hashedStrings H rebase.allowRebase rest') := by
        refine hs.mono fun x hx => ?_
        obtain hx | hx := List.mem_append.mp hx
        · exact List.mem_append_left _ (List.mem_append_right _ hx)
        · exact List.mem_append_right _ (List.mem_append_right _ hx)
      obtain rfl := segment_unmarked hsp
      obtain ⟨-, p', hp', hpeq, hl, hr⟩ := segment_ofNode hsp
      obtain ⟨-, q', hq', hqeq, -⟩ := segment_ofNode hsq
      cases marked' with
      | false =>
        have hsame : l ++ (r ++ (noteToBinary note ++ rest)) = l ++ (r ++ (noteToBinary note ++ rest')) := by
          rw [← hpeq, ← hqeq]
          exact hp'.symm.trans hq'
        obtain rfl := List.append_cancel_left (List.append_cancel_left (List.append_cancel_left hsame))
        exact ih rest.length (hn ▸ segment_ofNode_rest_lt hsp) hs' (hc.step false note) hrp hrq rfl
      | true =>
        have hmarks : marks 1 ++ (l ++ (r ++ (noteToBinary note ++ rest'))) = l ++ (r ++ (noteToBinary note ++ rest)) := by
          rw [← hpeq, ← hqeq]
          exact hq'.symm.trans hp'
        obtain ⟨-, -, rfl⟩ := marks_append_node Nat.one_pos hl hr (length_noteToBinary _) hmarks
        exact absurd hrq fun hrq => not_accepted_twice Nat.one_pos hbase hs' (hc.step false note) (hc.step true note) hrp hrq

lemma validatePathFrom_of_split {checks : Checks} (h : validatePathFrom H checks dataSize id c p = some res) :
    validatePathFrom H { checks with checkSplit := .none } dataSize id c p = some res := by
  let relaxed : Checks := { checks with checkSplit := .none }
  induction hn : p.length using Nat.strong_induction_on generalizing id p c with
  | _ n ih =>
    obtain ⟨data, e, hseg, hborders, -, hleaf⟩ | ⟨marked, l, r, note, rest, hseg, hid, hrest⟩ := validatePathFrom_some h
    · have hvalid : (areBordersValid relaxed c e && isSplitValid relaxed dataSize c e) = true :=
        Bool.and_eq_true_iff.mpr ⟨hborders, rfl⟩
      have hseg' : segment relaxed.allowRebase p = .leaf data e := hseg
      rw [validatePathFrom_leaf hseg', if_pos hvalid, hleaf]
    · have hseg' : segment relaxed.allowRebase p = .ofNode marked l r note rest := hseg
      rw [validatePathFrom_node hseg', if_pos hid]
      exact ih rest.length (hn ▸ segment_ofNode_rest_lt hseg) hrest rfl

end Readings

section Rulesets

variable {H : Digest 32} {root path : Bytes} {dest rightBound : Int} {res res' : DataPath}

lemma strictBorders_of_strictDataSplit (h : validatePath H root dest rightBound path .strictDataSplit = .ok (some res)) :
    validatePath H root dest rightBound path .strictBorders = .ok (some res) := by
  obtain ⟨hpos, h⟩ := validatePath_ok h
  rw [validatePath, if_neg (not_le.mpr hpos)]
  exact congrArg Except.ok (validatePathFrom_of_split h)

lemma validatePath_agree {ruleset ruleset' : Ruleset}
    (hs : H.CollisionFree (hashedStrings H false path ++ hashedStrings H true path))
    (h : validatePath H root dest rightBound path ruleset = .ok (some res))
    (h' : validatePath H root dest rightBound path ruleset' = .ok (some res')) : res = res' := by
  have hsub : ∀ allow, H.CollisionFree (hashedStrings H false path ++ hashedStrings H allow path) := by
    intro allow
    cases allow with
    | true => exact hs
    | false =>
      refine hs.mono fun x hx => List.mem_append_left _ ?_
      rwa [List.mem_append, or_self] at hx
  obtain ⟨hpos, hfrom⟩ := validatePath_ok h
  obtain ⟨-, hfrom'⟩ := validatePath_ok h'
  have hinside : (Cursor.start dest rightBound).Inside := Cursor.inside_start hpos
  by_cases hbase : ruleset.checks.allowRebase = false
  · exact validatePathFrom_agree hbase (hsub _) hinside hfrom hfrom'
  · by_cases hbase' : ruleset'.checks.allowRebase = false
    · exact (validatePathFrom_agree hbase' (hsub _) hinside hfrom' hfrom).symm
    · have hsame : ruleset = ruleset' := by
        cases ruleset <;> cases ruleset' <;> first | rfl | exact absurd rfl hbase | exact absurd rfl hbase'
      rw [hsame, h'] at h
      exact (Option.some.inj (Except.ok.inj h)).symm

end Rulesets

end Arweave.Merkle

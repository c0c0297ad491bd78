import Liveness.Closure.Words
import Liveness.Proofs.Ascending

/-! # Listing and counting the bits of words

Clearing the lowest bit again and again lists the bits of a word in ascending order. So the words
of a set together list and count exactly the bits that are set, also those that belong to no node.
-/

namespace Liveness

namespace Word

variable {w : UInt64} {i j x first : Nat}

theorem testBit_ctz (hw : w ≠ 0) : testBit w w.toBitVec.ctz.toNat = true := by
  have hv : w.toBitVec ≠ 0#64 := fun h => hw (UInt64.toBitVec_inj.mp h)
  have hb := BitVec.getLsbD_true_ctz_of_ne_zero hv
  rwa [testBit_eq (BitVec.lt_of_getLsbD hb)]

theorem testBit_of_lt_ctz (hi : i < 64) (hlt : i < w.toBitVec.ctz.toNat) : testBit w i = false := by
  rw [testBit_eq hi]
  exact BitVec.getLsbD_false_of_lt_ctz hlt

theorem ctz_lt (hw : w ≠ 0) : w.toBitVec.ctz.toNat < 64 := by
  have hv : w.toBitVec ≠ 0#64 := fun h => hw (UInt64.toBitVec_inj.mp h)
  exact BitVec.lt_of_getLsbD (BitVec.getLsbD_true_ctz_of_ne_zero hv)

/-- One less than a number has all bits below its lowest one instead of that. -/
theorem testBit_sub_one {m c : Nat} (hc : m.testBit c = true) (hlow : ∀ i < c, m.testBit i = false) :
    (m - 1).testBit j = if j ≤ c then decide (j < c) else m.testBit j := by
  have hmod : m % 2 ^ (c + 1) = 2 ^ c := by
    refine Nat.eq_of_testBit_eq fun i => ?_
    rw [Nat.testBit_mod_two_pow, Nat.testBit_two_pow]
    grind
  have hsplit : m = 2 ^ (c + 1) * (m / 2 ^ (c + 1)) + 2 ^ c := by
    rw [← hmod, Nat.div_add_mod]
  have hpow : 2 ^ c < 2 ^ (c + 1) := Nat.pow_lt_pow_right (by decide) (Nat.lt_succ_self c)
  have hpos : 1 ≤ 2 ^ c := Nat.one_le_two_pow
  have hpred : m - 1 = 2 ^ (c + 1) * (m / 2 ^ (c + 1)) + (2 ^ c - 1) := by omega
  have hm := Nat.testBit_two_pow_mul_add (m / 2 ^ (c + 1)) hpow j
  rw [← hsplit] at hm
  rw [hpred, Nat.testBit_two_pow_mul_add _ (by omega), hm, Nat.testBit_two_pow_sub_one]
  grind

/-- Taking one off and keeping the common bits clears the lowest bit. -/
theorem testBit_and_pred (hw : w ≠ 0) (hj : j < 64) :
    testBit (w &&& (w - 1)) j = (testBit w j && decide (w.toBitVec.ctz.toNat ≠ j)) := by
  have hbit : ∀ i < 64, testBit w i = w.toNat.testBit i := fun i hi => testBit_eq hi
  have hctz := ctz_lt hw
  have hpred : testBit (w - 1) j =
      if j ≤ w.toBitVec.ctz.toNat then decide (j < w.toBitVec.ctz.toNat) else testBit w j := by
    rw [testBit_eq hj, BitVec.getLsbD, UInt64.toNat_toBitVec, toNat_pred hw, hbit j hj]
    refine testBit_sub_one (hbit _ hctz ▸ testBit_ctz hw) fun i hi => ?_
    have hlt := Nat.lt_trans hi hctz
    rw [← hbit i hlt, testBit_of_lt_ctz hlt hi]
  rw [testBit_and hj, hpred]
  have := testBit_of_lt_ctz (w := w) hj
  grind

theorem mem_bits : x ∈ bits first w ↔ ∃ i < 64, testBit w i = true ∧ first + i = x := by
  induction w using bits.induct with
  | case1 =>
    rw [bits, if_pos rfl]
    refine iff_of_false List.not_mem_nil ?_
    rintro ⟨i, hi, h, -⟩
    rw [testBit_zero hi] at h
    cases h
  | case2 w hw ih =>
    rw [bits, if_neg hw, List.mem_cons, ih]
    have hctz := ctz_lt hw
    constructor
    · rintro (rfl | ⟨i, hi, h, hx⟩)
      · exact ⟨_, hctz, testBit_ctz hw, rfl⟩
      · rw [testBit_and_pred hw hi, Bool.and_eq_true] at h
        exact ⟨i, hi, h.1, hx⟩
    · rintro ⟨i, hi, h, rfl⟩
      by_cases he : w.toBitVec.ctz.toNat = i
      · exact .inl (he ▸ rfl)
      · refine .inr ⟨i, hi, ?_, rfl⟩
        rw [testBit_and_pred hw hi, h, decide_eq_true he]
        rfl

theorem bits_pairwise (first : Nat) (w : UInt64) : (bits first w).Pairwise (· < ·) := by
  induction w using bits.induct with
  | case1 => simp [bits]
  | case2 w hw ih =>
    rw [bits, if_neg hw]
    refine List.pairwise_cons.mpr ⟨fun x hx => ?_, ih⟩
    obtain ⟨i, hi, h, rfl⟩ := mem_bits.mp hx
    rw [testBit_and_pred hw hi, Bool.and_eq_true, decide_eq_true_iff] at h
    have hle : ¬ i < w.toBitVec.ctz.toNat := fun hlt => by
      rw [testBit_of_lt_ctz hi hlt] at h
      exact Bool.false_ne_true h.1
    omega

theorem bits_eq (first : Nat) (w : UInt64) :
    bits first w = ((List.range 64).filter (testBit w)).map (first + ·) := by
  have hr : (((List.range 64).filter (testBit w)).map (first + ·)).Pairwise (· < ·) :=
    (List.pairwise_lt_range.filter _).map _ fun _ _ h => Nat.add_lt_add_left h first
  refine Ascending.eq_of_mem_iff (bits_pairwise first w) hr fun x => ?_
  simp [mem_bits, and_assoc]

theorem count_eq (w : UInt64) : count w = ((List.range 64).filter (testBit w)).length := by
  have hrec : ∀ k ≤ 64, ∀ m, w.toBitVec.cpopNatRec k m =
      m + ((List.range k).filter (testBit w)).length := by
    intro k
    induction k with
    | zero => simp
    | succ k ih =>
      intro hk m
      rw [BitVec.cpopNatRec_succ, ih (by omega), List.range_succ, List.filter_append,
        List.length_append, ← testBit_eq (by omega : k < 64)]
      cases h : testBit w k <;> simp [h]
      omega
  rw [count, BitVec.toNat_cpop, hrec 64 (Nat.le_refl _), Nat.zero_add]

end Word

namespace Words

variable {n x : Nat} {s : Words n}

theorem nodes_eq (s : Words n) :
    s.nodes = (List.range (64 * wordsFor n)).filter s.testBit := by
  have hbits : ∀ k, Word.bits (64 * k) (s.word k) =
      ((List.range 64).map (64 * k + ·)).filter s.testBit := fun k => by
    rw [Word.bits_eq, List.filter_map]
    congr 1
    refine List.filter_congr fun j hj => ?_
    have hj := List.mem_range.mp hj
    rw [Function.comp_apply, testBit, show (64 * k + j) / 64 = k by omega,
      show (64 * k + j) % 64 = j by omega]
  unfold nodes
  generalize wordsFor n = m
  induction m with
  | zero => rfl
  | succ m ih =>
    rw [List.range_succ, List.flatMap_append, ih, List.flatMap_singleton, hbits,
      ← List.filter_append, Nat.mul_add_one, List.range_add]

theorem mem_nodes : x ∈ s.nodes ↔ s.testBit x = true := by
  rw [nodes_eq, List.mem_filter, List.mem_range]
  refine and_iff_right_of_imp fun h => Nat.lt_of_not_le fun hx => ?_
  rw [testBit_eq_false (by omega)] at h
  cases h

theorem nodes_pairwise (s : Words n) : s.nodes.Pairwise (· < ·) := by
  rw [nodes_eq]
  exact List.pairwise_lt_range.filter _

theorem count_eq (s : Words n) : s.count = s.nodes.length := by
  unfold count nodes
  generalize wordsFor n = m
  induction m with
  | zero => rfl
  | succ m ih =>
    rw [List.range_succ, List.foldl_append, ih, List.flatMap_append, List.length_append,
      List.flatMap_singleton, Word.bits_eq, List.length_map, ← Word.count_eq]
    rfl

theorem count_eq_filter {m : Nat} (hs : ∀ i, s.testBit i = true → i < m) :
    s.count = ((List.range m).filter s.testBit).length := by
  rw [count_eq]
  refine congrArg List.length (Ascending.eq_of_mem_iff (nodes_pairwise s)
    (List.pairwise_lt_range.filter _) fun i => ?_)
  rw [mem_nodes, List.mem_filter, List.mem_range]
  exact (and_iff_right_of_imp (hs i)).symm

end Words

end Liveness

/-! # Sets of nodes in words

A set of nodes below `n` is kept in words of 64 bits. The last word can have bits that belong to
no node, and where there are no nodes there is still one word.
-/

namespace Liveness

/-- The number of words that hold `n` bits, which is never zero. -/
def wordsFor (n : Nat) : Nat := max ((n + 63) / 64) 1

namespace Word

def single (i : Nat) : UInt64 := 1 <<< UInt64.ofNat i

/-- The word with all its bits. -/
def ones : UInt64 := ~~~ 0

def testBit (w : UInt64) (i : Nat) : Bool := w >>> UInt64.ofNat i &&& 1 == 1

/-- The number of bits that are set. -/
def count (w : UInt64) : Nat := w.toBitVec.cpop.toNat

theorem one_le {w : UInt64} (hw : w ≠ 0) : 1 ≤ w := by
  rw [UInt64.le_iff_toNat_le]
  exact Nat.pos_of_ne_zero fun h => hw (UInt64.toNat_inj.mp h)

theorem toNat_pred {w : UInt64} (hw : w ≠ 0) : (w - 1).toNat = w.toNat - 1 :=
  UInt64.toNat_sub_of_le _ _ (one_le hw)

theorem and_pred_lt {w : UInt64} (hw : w ≠ 0) : (w &&& (w - 1)).toNat < w.toNat := by
  have hpos : 0 < w.toNat := UInt64.le_iff_toNat_le.mp (one_le hw)
  have hle : (w &&& (w - 1)).toNat ≤ w.toNat - 1 := by
    rw [UInt64.toNat_and, toNat_pred hw]
    exact Nat.and_le_right
  omega

/-- The set bits of a word, counted from `first`: the lowest one is listed and cleared, until
none is left. -/
def bits (first : Nat) (rest : UInt64) : List Nat :=
  if rest = 0 then []
  else (first + rest.toBitVec.ctz.toNat) :: bits first (rest &&& (rest - 1))
termination_by rest.toNat
decreasing_by exact and_pred_lt ‹_›

end Word

/-- A set of nodes below `n`. -/
abbrev Words (n : Nat) := Vector UInt64 (wordsFor n)

namespace Words

variable {n : Nat}

/-- The same word all over. -/
def filled (n : Nat) (w : UInt64) : Words n := Vector.replicate (wordsFor n) w

def empty (n : Nat) : Words n := filled n 0

/-- The set of all nodes below `n`, without the bits that the last word has too many. -/
def full (n : Nat) : Words n :=
  let mask := filled n Word.ones
  let tail := n % 64
  let mask := if tail ≠ 0 then mask.setIfInBounds (wordsFor n - 1) (Word.single tail - 1) else mask
  if n = 0 then mask.setIfInBounds 0 0 else mask

def word (s : Words n) (w : Nat) : UInt64 := s[w]?.getD 0

def testBit (s : Words n) (i : Nat) : Bool := Word.testBit (s.word (i / 64)) (i % 64)

def insert (s : Words n) (i : Nat) : Words n :=
  s.setIfInBounds (i / 64) (s.word (i / 64) ||| Word.single (i % 64))

def erase (s : Words n) (i : Nat) : Words n :=
  s.setIfInBounds (i / 64) (s.word (i / 64) &&& ~~~ Word.single (i % 64))

def union (s t : Words n) : Words n := s.zipWith (· ||| ·) t

def inter (s t : Words n) : Words n := s.zipWith (· &&& ·) t

/-- The nodes of the first set that are not in the second. -/
def diff (s t : Words n) : Words n := s.zipWith (fun a b => a &&& ~~~ b) t

def isEmpty (s : Words n) : Bool := s.all (· == 0)

/-- The set bits of all words, word by word. -/
def nodes (s : Words n) : List Nat :=
  (List.range (wordsFor n)).flatMap fun w => Word.bits (64 * w) (s.word w)

/-- The number of set bits of all words. -/
def count (s : Words n) : Nat :=
  (List.range (wordsFor n)).foldl (fun total w => total + Word.count (s.word w)) 0

end Words

namespace Word

variable {v w : UInt64} {i j : Nat}

theorem testBit_eq (hi : i < 64) : testBit w i = w.toBitVec.getLsbD i := by
  have hmod : i % 2 ^ 64 % 64 = i := by omega
  rw [testBit, Bool.eq_iff_iff, beq_iff_eq, ← UInt64.toNat_inj, UInt64.toNat_and,
    UInt64.toNat_shiftRight, UInt64.toNat_ofNat', hmod, UInt64.toNat_one, Nat.and_one_is_mod,
    Nat.shiftRight_eq_div_pow, BitVec.getLsbD, UInt64.toNat_toBitVec,
    Nat.testBit_eq_decide_div_mod_eq, decide_eq_true_iff]

theorem eq_of_testBit_eq (h : ∀ i < 64, testBit v i = testBit w i) : v = w := by
  rw [← UInt64.toBitVec_inj]
  apply BitVec.eq_of_getLsbD_eq
  intro i hi
  rw [← testBit_eq hi, ← testBit_eq hi, h i hi]

theorem testBit_zero (hi : i < 64) : testBit 0 i = false := by simp [testBit_eq hi]

theorem testBit_or (hi : i < 64) : testBit (v ||| w) i = (testBit v i || testBit w i) := by
  simp [testBit_eq hi]

theorem testBit_and (hi : i < 64) : testBit (v &&& w) i = (testBit v i && testBit w i) := by
  simp [testBit_eq hi]

theorem testBit_not (hi : i < 64) : testBit (~~~ w) i = !testBit w i := by
  simp [testBit_eq hi, hi]

theorem toNat_single (hi : i < 64) : (single i).toNat = 1 <<< i := by
  have hlt : 2 ^ i < 2 ^ 64 := Nat.pow_lt_pow_right (by decide) hi
  have hmod : i % 2 ^ 64 % 64 = i := by omega
  rw [single, UInt64.toNat_shiftLeft, UInt64.toNat_ofNat', hmod, UInt64.toNat_one,
    Nat.mod_eq_of_lt (Nat.one_shiftLeft i ▸ hlt)]

theorem testBit_single (hi : i < 64) (hj : j < 64) : testBit (single i) j = decide (i = j) := by
  rw [testBit_eq hj, BitVec.getLsbD, UInt64.toNat_toBitVec, toNat_single hi, Nat.one_shiftLeft,
    Nat.testBit_two_pow]

/-- The word below a single bit has all bits before it. -/
theorem testBit_single_sub_one (hi : i < 64) (hj : j < 64) :
    testBit (single i - 1) j = decide (j < i) := by
  have hne : single i ≠ 0 := fun h => by
    have hz := (toNat_single hi).trans (Nat.one_shiftLeft i)
    rw [h] at hz
    exact absurd hz (Nat.ne_of_lt (Nat.two_pow_pos i))
  rw [testBit_eq hj, BitVec.getLsbD, UInt64.toNat_toBitVec, toNat_pred hne, toNat_single hi,
    Nat.one_shiftLeft]
  exact Nat.testBit_two_pow_sub_one i j

theorem testBit_ones (hi : i < 64) : testBit ones i = true := by
  rw [ones, testBit_not hi, testBit_zero hi]
  rfl

end Word

theorem div_lt_wordsFor {n i : Nat} (hi : i < n) : i / 64 < wordsFor n := by
  unfold wordsFor
  omega

namespace Words

variable {n i j : Nat} {s t : Words n}

theorem mod_lt (i : Nat) : i % 64 < 64 := Nat.mod_lt i (by decide)

theorem word_zipWith {f : UInt64 → UInt64 → UInt64} (hf : f 0 0 = 0) (k : Nat) :
    word (s.zipWith f t : Words n) k = f (s.word k) (t.word k) := by
  simp only [word, Vector.getElem?_zipWith]
  by_cases hk : k < wordsFor n
  · simp [hk]
  · simp [hk, hf]

theorem word_setIfInBounds {w : UInt64} (k l : Nat) :
    word (s.setIfInBounds k w : Words n) l = if k = l ∧ k < wordsFor n then w else s.word l := by
  simp only [word, Vector.getElem?_setIfInBounds]
  grind

theorem word_filled {w : UInt64} (k : Nat) :
    (filled n w).word k = if k < wordsFor n then w else 0 := by
  rw [word, filled, Vector.getElem?_replicate]
  split <;> rfl

theorem testBit_eq_false (hi : wordsFor n ≤ i / 64) : s.testBit i = false := by
  rw [testBit, word, Vector.getElem?_eq_none hi]
  exact Word.testBit_zero (mod_lt i)

/-- Sets with the same bits are the same, those that belong to no node included. -/
theorem eq_of_testBit_eq (h : ∀ i, s.testBit i = t.testBit i) : s = t := by
  apply Vector.ext
  intro k hk
  apply Word.eq_of_testBit_eq
  intro i hi
  have := h (64 * k + i)
  rw [testBit, testBit, show (64 * k + i) / 64 = k by omega,
    show (64 * k + i) % 64 = i by omega] at this
  simpa [word, hk] using this

@[simp]
theorem testBit_empty : (empty n).testBit i = false := by
  rw [testBit, empty, word_filled, ite_self]
  exact Word.testBit_zero (mod_lt i)

theorem testBit_of_isEmpty (hs : s.isEmpty = true) (i : Nat) : s.testBit i = false := by
  have hw : s.word (i / 64) = 0 := by
    unfold word
    by_cases hk : i / 64 < wordsFor n
    · simpa [hk] using Vector.all_eq_true.mp hs _ hk
    · simp [hk]
  rw [testBit, hw]
  exact Word.testBit_zero (mod_lt i)

@[simp]
theorem testBit_union : (s.union t).testBit i = (s.testBit i || t.testBit i) := by
  rw [testBit, union, word_zipWith rfl, Word.testBit_or (mod_lt i)]
  rfl

@[simp]
theorem testBit_inter : (s.inter t).testBit i = (s.testBit i && t.testBit i) := by
  rw [testBit, inter, word_zipWith rfl, Word.testBit_and (mod_lt i)]
  rfl

@[simp]
theorem testBit_diff : (s.diff t).testBit i = (s.testBit i && !t.testBit i) := by
  rw [testBit, diff, word_zipWith rfl, Word.testBit_and (mod_lt i), Word.testBit_not (mod_lt i)]
  rfl

/-- An address beyond the words is not taken into a set. -/
theorem testBit_insert : (s.insert i).testBit j = true ↔
    s.testBit j = true ∨ i = j ∧ i / 64 < wordsFor n := by
  rw [testBit, insert, word_setIfInBounds]
  split
  · next hk =>
    rw [Word.testBit_or (mod_lt j), Word.testBit_single (mod_lt i) (mod_lt j), hk.1, testBit,
      Bool.or_eq_true, decide_eq_true_iff]
    have hij : i % 64 = j % 64 ↔ i = j := by omega
    simp [hij, ← hk.1, hk.2]
  · next hk =>
    have hne : ¬ (i = j ∧ i / 64 < wordsFor n) := fun ⟨he, hi⟩ => hk ⟨congrArg (· / 64) he, hi⟩
    rw [or_iff_left hne]
    rfl

@[simp]
theorem testBit_erase : (s.erase i).testBit j = (s.testBit j && !decide (i = j)) := by
  rw [testBit, erase, word_setIfInBounds]
  split
  · next hk =>
    rw [Word.testBit_and (mod_lt j), Word.testBit_not (mod_lt j),
      Word.testBit_single (mod_lt i) (mod_lt j), testBit, hk.1]
    congr 3
    rw [eq_iff_iff]
    omega
  · next hk =>
    by_cases he : i = j
    · subst he
      have := testBit_eq_false (s := s) (Nat.not_lt.mp fun hlt => hk ⟨rfl, hlt⟩)
      rw [this, ← testBit, this]
      rfl
    · simp [he, testBit]

theorem testBit_word_ones {k : Nat} (hj : j < 64) :
    Word.testBit ((filled n Word.ones).word k) j = decide (k < wordsFor n) := by
  rw [word_filled]
  split
  · next hk => rw [Word.testBit_ones hj, decide_eq_true hk]
  · next hk => rw [Word.testBit_zero hj, decide_eq_false hk]

/-- All nodes are in the full set, and nothing beyond the last of them. -/
@[simp]
theorem testBit_full : (full n).testBit i = decide (i < n) := by
  have hlt := mod_lt i
  have hwords : wordsFor n = max ((n + 63) / 64) 1 := rfl
  unfold testBit full
  by_cases hn : n = 0
  · subst hn
    rw [if_pos rfl, if_neg (by decide), word_setIfInBounds, decide_eq_false (Nat.not_lt_zero i)]
    split
    · exact Word.testBit_zero hlt
    · rw [testBit_word_ones hlt, decide_eq_false_iff_not]
      omega
  · rw [if_neg hn]
    split
    · rw [word_setIfInBounds]
      split
      · -- the last word has the nodes that are left over
        rw [Word.testBit_single_sub_one (mod_lt n) hlt, decide_eq_decide]
        omega
      · rw [testBit_word_ones hlt, decide_eq_decide]
        omega
    · rw [testBit_word_ones hlt, decide_eq_decide]
      omega

end Words

end Liveness

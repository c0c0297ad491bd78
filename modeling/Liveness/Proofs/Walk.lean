import Mathlib.Data.List.Chain
import Mathlib.Data.List.Nodup
import Mathlib.Data.List.Perm.Subperm
import Mathlib.Logic.Relation
import Liveness.Graph.Chain

/-! # Walks and closed rings

A walk goes from Op to Op as long as there is a next one. Where different Ops have different next
ones, it either comes to an end without meeting an Op twice, or it goes round a closed ring that it
started on. The walks from the Ops that come next after none never meet, and each step that is not
on a closed ring is on one of them.
-/

namespace Liveness

variable {next : Nat → Option Nat} {l m chain : List Nat} {a b z n steps i j : Nat}

/-- The walk from an Op comes to an end, and these are the Ops on it. -/
inductive Walked (next : Nat → Option Nat) : Nat → List Nat → Prop
  | stop {a : Nat} (h : next a = none) : Walked next a [a]
  | step {a b : Nat} {l : List Nat} (h : next a = some b) (hl : Walked next b l) :
    Walked next a (a :: l)

/-- The Op is on a closed ring: after some steps the walk is back at it. -/
def OnRing (next : Nat → Option Nat) (a : Nat) : Prop :=
  Relation.TransGen (fun a b => next a = some b) a a

section Walk

theorem head?_walk (next : Nat → Option Nat) (steps a : Nat) :
    (walk next steps a).head? = some a := by
  cases steps with
  | zero => rfl
  | succ steps =>
    unfold walk
    split <;> rfl

theorem walk_ne_nil (next : Nat → Option Nat) (steps a : Nat) : walk next steps a ≠ [] := by
  intro h
  have := head?_walk next steps a
  rw [h] at this
  cases this

theorem walk_isChain (next : Nat → Option Nat) (steps a : Nat) :
    (walk next steps a).IsChain fun a b => next a = some b := by
  induction steps generalizing a with
  | zero => simp [walk]
  | succ steps ih =>
    unfold walk
    split
    · simp
    · next b hb =>
      have hh := head?_walk next steps b
      have hc := ih b
      cases hw : walk next steps b with
      | nil =>
        rw [hw] at hh
        cases hh
      | cons c cs =>
        rw [hw] at hh hc
        obtain rfl : c = b := Option.some.inj hh
        exact List.isChain_cons_cons.mpr ⟨hb, hc⟩

theorem length_walk_le (next : Nat → Option Nat) (steps a : Nat) :
    (walk next steps a).length ≤ steps + 1 := by
  induction steps generalizing a with
  | zero => exact Nat.le_refl 1
  | succ steps ih =>
    unfold walk
    split
    · simp
    · exact Nat.succ_le_succ (ih _)

theorem walked_walk (h : (walk next steps a).length ≤ steps) :
    Walked next a (walk next steps a) := by
  induction steps generalizing a with
  | zero => simp [walk] at h
  | succ steps ih =>
    unfold walk at h ⊢
    cases hn : next a with
    | none => exact .stop hn
    | some b =>
      rw [hn] at h
      exact .step hn (ih (Nat.le_of_succ_le_succ h))

namespace Walked

theorem walk_eq (h : Walked next a l) (hs : l.length ≤ steps + 1) : walk next steps a = l := by
  induction h generalizing steps with
  | stop hn => cases steps <;> simp [walk, hn]
  | @step a b l hn hl ih =>
    cases steps with
    | zero => cases hl <;> simp at hs
    | succ steps => simp [walk, hn, ih (Nat.le_of_succ_le_succ hs)]

theorem eq_walk (h : Walked next a l) : l = walk next l.length a := (h.walk_eq (Nat.le_succ _)).symm

theorem head? (h : Walked next a l) : l.head? = some a := by
  rw [h.eq_walk]
  exact head?_walk _ _ _

theorem isChain (h : Walked next a l) : l.IsChain fun a b => next a = some b := by
  rw [h.eq_walk]
  exact walk_isChain _ _ _

theorem next_eq_none (h : Walked next a l) (hz : l.getLast? = some z) : next z = none := by
  induction h with
  | stop hn =>
    obtain rfl : _ = z := by simpa using hz
    exact hn
  | @step a b l hn hl ih =>
    have hne : l ≠ [] := by
      rintro rfl
      cases hl
    exact ih (by rwa [List.getLast?_cons_of_ne_nil hne] at hz)

theorem of_append (h : Walked next a chain) (hc : chain = l ++ b :: m) : Walked next b (b :: m) := by
  induction h generalizing l with
  | stop hn =>
    cases l with
    | nil =>
      obtain ⟨rfl, rfl⟩ := List.cons.inj hc
      exact .stop hn
    | cons c l => simp at hc
  | step hn hl ih =>
    cases l with
    | nil =>
      obtain ⟨rfl, rfl⟩ := List.cons.inj hc
      exact .step hn hl
    | cons c l => exact ih (List.cons.inj hc).2

theorem not_onRing (h : Walked next a l) : ¬ OnRing next a := by
  induction h with
  | stop hn =>
    intro hr
    obtain ⟨b, hb, -⟩ := Relation.TransGen.head'_iff.mp hr
    rw [hn] at hb
    cases hb
  | step hn hl ih =>
    intro hr
    obtain ⟨c, hc, hca⟩ := Relation.TransGen.head'_iff.mp hr
    obtain rfl := Option.some.inj (hn.symm.trans hc)
    exact ih (Relation.TransGen.tail' hca hn)

theorem two_le_length (h : Walked next a l) (hb : next a = some b) : 2 ≤ l.length := by
  cases h with
  | stop hn =>
    rw [hn] at hb
    cases hb
  | step hn hl => cases hl <;> simp

theorem step_of_adjacent (h : Walked next z chain) (hi : [a, b] <:+: chain) :
    next a = some b ∧ ¬ OnRing next a := by
  obtain ⟨l, m, he⟩ := hi
  have hrest : Walked next a (a :: b :: m) := h.of_append (l := l) (by simp [← he])
  exact ⟨(List.isChain_cons_cons.mp hrest.isChain).1, hrest.not_onRing⟩

/-- Whoever goes from Op to next Op, from the same start, is on the walk. -/
theorem isPrefix (h : Walked next a chain) (hl : l.IsChain fun a b => next a = some b)
    (hh : l.head? = some a) : l <+: chain := by
  obtain ⟨l, rfl⟩ := List.head?_eq_some_iff.mp hh
  induction h generalizing l with
  | stop hn =>
    cases l with
    | nil => exact List.prefix_rfl
    | cons b l =>
      rw [(List.isChain_cons_cons.mp hl).1] at hn
      cases hn
  | @step a b chain hn _ ih =>
    cases l with
    | nil => exact List.cons_prefix_cons.mpr ⟨rfl, List.nil_prefix⟩
    | cons c l =>
      obtain ⟨hc, hl⟩ := List.isChain_cons_cons.mp hl
      obtain rfl := Option.some.inj (hn.symm.trans hc)
      exact List.cons_prefix_cons.mpr ⟨rfl, ih l hl rfl⟩

end Walked

theorem OnRing.length_walk (h : OnRing next a) (steps : Nat) :
    (walk next steps a).length = steps + 1 := by
  refine Nat.le_antisymm (length_walk_le next steps a) (Nat.lt_of_not_le fun hl => ?_)
  exact (walked_walk hl).not_onRing h

theorem not_onRing_of_rank {f : Nat → Nat} (hf : ∀ a b, next a = some b → f a < f b) :
    ¬ OnRing next a := by
  have hlt : ∀ {b}, Relation.TransGen (fun a b => next a = some b) a b → f a < f b := by
    intro b h
    induction h with
    | single h => exact hf _ _ h
    | tail _ h ih => exact ih.trans (hf _ _ h)
  exact fun h => Nat.lt_irrefl _ (hlt h)

theorem not_onRing_of_first (h : ∀ x, next x ≠ some a) : ¬ OnRing next a := by
  intro hr
  obtain ⟨x, -, hx⟩ := Relation.TransGen.tail'_iff.mp hr
  exact h x hx

end Walk

section Injective

theorem head?_eq_of_getElem (hinj : ∀ ⦃a b c⦄, next a = some c → next b = some c → a = b)
    (hl : l.IsChain fun a b => next a = some b) (hm : m.IsChain fun a b => next a = some b)
    (hi : i < l.length) (hj : i < m.length) (h : l[i] = m[i]) : l.head? = m.head? := by
  rw [List.isChain_iff_getElem] at hl hm
  induction i with
  | zero => simp [List.head?_eq_getElem?, hi, hj, h]
  | succ i ih =>
    exact ih (Nat.lt_of_succ_lt hi) (Nat.lt_of_succ_lt hj) (hinj (hl i hi) (h ▸ hm i hj))

theorem transGen_getElem (hl : l.IsChain fun a b => next a = some b) (hi : i < l.length)
    (hj : j < l.length) (hij : i < j) :
    Relation.TransGen (fun a b => next a = some b) l[i] l[j] := by
  have hc : l.IsChain (Relation.TransGen fun a b => next a = some b) :=
    hl.imp fun _ _ h => .single h
  exact List.pairwise_iff_getElem.mp hc.pairwise i j hi hj hij

theorem lt_of_mem_isChain (hlt : ∀ ⦃a b⦄, next a = some b → a < n ∧ b < n)
    (hl : l.IsChain fun a b => next a = some b) (hh : ∀ a ∈ l.head?, a < n) (hb : b ∈ l) :
    b < n := by
  obtain ⟨i, hi, rfl⟩ := List.getElem_of_mem hb
  cases i with
  | zero => exact hh l[0] (by simp [List.head?_eq_getElem?, hi])
  | succ i => exact (hlt (List.isChain_iff_getElem.mp hl i hi)).2

variable (hinj : ∀ ⦃a b c⦄, next a = some c → next b = some c → a = b)

include hinj

/-- A walk meets an Op twice only on a closed ring that it started on. -/
theorem nodup_of_not_onRing (hl : l.IsChain fun a b => next a = some b)
    (hr : ∀ a ∈ l.head?, ¬ OnRing next a) : l.Nodup := by
  rw [List.nodup_iff_pairwise_ne, List.pairwise_iff_getElem]
  intro i j hi hj hij he
  have hlt : j - i < l.length := by omega
  -- the walk that starts later is at the same Op after as many steps
  have hhead := head?_eq_of_getElem hinj hl (hl.drop (j - i)) hi
    (by rw [List.length_drop]; omega) (by simpa [Nat.sub_add_cancel hij.le] using he)
  have hround := transGen_getElem hl (Nat.zero_lt_of_lt hlt) hlt (Nat.sub_pos_of_lt hij)
  rw [List.head?_drop, List.getElem?_eq_getElem hlt, List.head?_eq_getElem?,
    List.getElem?_eq_getElem (by omega)] at hhead
  rw [← Option.some.inj hhead] at hround
  exact hr l[0] (by simp [List.head?_eq_getElem?]) hround

theorem nodup_of_isChain (hl : l.IsChain fun a b => next a = some b)
    (hl' : ∀ a ∈ l.head?, ∀ x, next x ≠ some a) : l.Nodup :=
  nodup_of_not_onRing hinj hl fun a ha => not_onRing_of_first (hl' a ha)

/-- Two walks from Ops that come next after none are at the same Op only after as many steps from
the same start. -/
theorem index_eq_of_isChain (hl : l.IsChain fun a b => next a = some b)
    (hl' : ∀ a ∈ l.head?, ∀ x, next x ≠ some a) (hm : m.IsChain fun a b => next a = some b)
    (hm' : ∀ a ∈ m.head?, ∀ x, next x ≠ some a) (hi : i < l.length) (hj : j < m.length)
    (h : l[i] = m[j]) : i = j ∧ l.head? = m.head? := by
  rw [List.isChain_iff_getElem] at hl hm
  rw [List.head?_eq_getElem?] at hl' hm' ⊢
  rw [List.head?_eq_getElem?]
  induction i generalizing j with
  | zero =>
    cases j with
    | zero => simp [hi, hj, h]
    | succ j => exact absurd (h ▸ hm j hj) (hl' l[0] (by simp [hi]) m[j])
  | succ i ih =>
    cases j with
    | zero => exact absurd (h ▸ hl i hi) (hm' m[0] (by simp [hj]) l[i])
    | succ j =>
      have hij := ih (Nat.lt_of_succ_lt hi) (Nat.lt_of_succ_lt hj) (hinj (hl i hi) (h ▸ hm j hj))
      exact ⟨congrArg (· + 1) hij.1, hij.2⟩

theorem disjoint_of_isChain (hl : l.IsChain fun a b => next a = some b)
    (hl' : ∀ a ∈ l.head?, ∀ x, next x ≠ some a) (hm : m.IsChain fun a b => next a = some b)
    (hm' : ∀ a ∈ m.head?, ∀ x, next x ≠ some a) (hne : l.head? ≠ m.head?) : l.Disjoint m := by
  intro x hx hx'
  obtain ⟨i, hi, rfl⟩ := List.getElem_of_mem hx
  obtain ⟨j, hj, h⟩ := List.getElem_of_mem hx'
  exact hne (index_eq_of_isChain hinj hl hl' hm hm' hi hj h.symm).2

theorem Walked.nodup (h : Walked next a l) : l.Nodup := by
  refine nodup_of_not_onRing hinj h.isChain fun b hb => ?_
  rw [h.head?] at hb
  exact Option.some.inj hb ▸ h.not_onRing

section Bounded

variable (hlt : ∀ ⦃a b⦄, next a = some b → a < n ∧ b < n)

include hlt

theorem length_le_of_not_onRing (hl : l.IsChain fun a b => next a = some b)
    (hh : ∀ a ∈ l.head?, a < n ∧ ¬ OnRing next a) : l.length ≤ n := by
  have hn := nodup_of_not_onRing hinj hl fun a ha => (hh a ha).2
  have hs : l ⊆ List.range n := fun b hb =>
    List.mem_range.mpr (lt_of_mem_isChain hlt hl (fun a ha => (hh a ha).1) hb)
  simpa using (List.subperm_of_subset hn hs).length_le

theorem walked_of_not_onRing (ha : a < n) (hr : ¬ OnRing next a) :
    Walked next a (walk next n a) := by
  refine walked_walk (length_le_of_not_onRing hinj hlt (walk_isChain next n a) fun b hb => ?_)
  rw [head?_walk] at hb
  exact Option.some.inj hb ▸ ⟨ha, hr⟩

theorem Walked.length_le (h : Walked next a l) (ha : a < n) : l.length ≤ n := by
  refine length_le_of_not_onRing hinj hlt h.isChain fun b hb => ?_
  rw [h.head?] at hb
  exact Option.some.inj hb ▸ ⟨ha, h.not_onRing⟩

theorem exists_walked_iff (ha : a < n) : (∃ l, Walked next a l) ↔ ¬ OnRing next a :=
  ⟨fun ⟨_, h⟩ => h.not_onRing, fun hr => ⟨_, walked_of_not_onRing hinj hlt ha hr⟩⟩

end Bounded

end Injective

/-! ## Back along a walk -/

def previous (next : Nat → Option Nat) (n b : Nat) : Option Nat :=
  (List.range n).find? fun a => next a == some b

section Previous

variable (hinj : ∀ ⦃a b c⦄, next a = some c → next b = some c → a = b)
  (hlt : ∀ ⦃a b⦄, next a = some b → a < n ∧ b < n)

include hinj hlt

theorem previous_eq_some : previous next n b = some a ↔ next a = some b := by
  constructor
  · intro h
    simpa using List.find?_some h
  · intro h
    cases hf : previous next n b with
    | none =>
      have hno := List.find?_eq_none.mp hf a (List.mem_range.mpr (hlt h).1)
      simp [h] at hno
    | some c => rw [hinj h (by simpa using List.find?_some hf)]

theorem onRing_previous : OnRing (previous next n) a ↔ OnRing next a := by
  unfold OnRing
  simp only [previous_eq_some hinj hlt]
  exact Relation.transGen_swap

/-- From an Op on no closed ring one comes back to an Op that comes next after none. -/
theorem exists_first (ha : a < n) (hr : ¬ OnRing next a) : ∃ l : List Nat,
    (l.IsChain fun a b => next a = some b) ∧ l.getLast? = some a ∧
      ∀ x ∈ l.head?, ∀ y, next y ≠ some x := by
  have hinj' : ∀ ⦃a b c⦄, previous next n a = some c → previous next n b = some c → a = b := by
    intro a b c h h'
    rw [previous_eq_some hinj hlt] at h h'
    exact Option.some.inj (h.symm.trans h')
  have hlt' : ∀ ⦃a b⦄, previous next n a = some b → a < n ∧ b < n := fun a b h =>
    (hlt ((previous_eq_some hinj hlt).mp h)).symm
  have hw := walked_of_not_onRing hinj' hlt' ha (mt (onRing_previous hinj hlt).mp hr)
  refine ⟨(walk (previous next n) n a).reverse, ?_, ?_, fun x hx y hy => ?_⟩
  · rw [List.isChain_reverse]
    exact hw.isChain.imp fun _ _ h => (previous_eq_some hinj hlt).mp h
  · rw [List.getLast?_reverse, hw.head?]
  · rw [List.head?_reverse] at hx
    have hnone := hw.next_eq_none hx
    rw [(previous_eq_some hinj hlt).mpr hy] at hnone
    cases hnone

end Previous

/-! ## Longest chains -/

/-- These are the longest chains of next Ops, by their first Op. Each of them is the walk from an Op
that has a next one and comes next after none. No Op is on two of them, or on one of them twice, and
all steps are on them but for those on closed rings. -/
structure LongestChains (next : Nat → Option Nat) (chains : List (List Nat)) : Prop where
  walked : ∀ chain ∈ chains, ∃ a, Walked next a chain
  steps : ∀ chain ∈ chains, chain.IsChain fun a b => next a = some b
  two_le_length : ∀ chain ∈ chains, 2 ≤ chain.length
  first : ∀ chain ∈ chains, ∀ a, chain.head? = some a → ∀ x, next x ≠ some a
  last : ∀ chain ∈ chains, ∀ z, chain.getLast? = some z → next z = none
  nodup : chains.flatten.Nodup
  ascending : chains.Pairwise fun l m => ∀ a ∈ l.head?, ∀ b ∈ m.head?, a < b
  step_iff : ∀ {a b}, (∃ chain ∈ chains, [a, b] <:+: chain) ↔ next a = some b ∧ ¬ OnRing next a

namespace LongestChains

variable {chains : List (List Nat)}

theorem unique (h : LongestChains next chains) (hl : l ∈ chains) (hm : m ∈ chains) (ha : a ∈ l)
    (ha' : a ∈ m) : l = m := by
  have hsymm : Std.Symm (@List.Disjoint Nat) := ⟨fun _ _ => List.disjoint_symm⟩
  by_contra hne
  exact (List.nodup_flatten.mp h.nodup).2.forall hl hm hne ha ha'

theorem lt_of_mem (h : LongestChains next chains)
    (hlt : ∀ ⦃a b⦄, next a = some b → a < n ∧ b < n) (hc : chain ∈ chains) (ha : a ∈ chain) :
    a < n := by
  refine lt_of_mem_isChain hlt (h.steps chain hc) (fun b hb => ?_) ha
  obtain ⟨m, rfl⟩ := List.head?_eq_some_iff.mp hb
  cases m with
  | nil => exact absurd (h.two_le_length [b] hc) (Nat.lt_irrefl 1)
  | cons c m => exact (hlt (List.isChain_cons_cons.mp (h.steps _ hc)).1).1

theorem lt_of_mem_flatten (h : LongestChains next chains)
    (hlt : ∀ ⦃a b⦄, next a = some b → a < n ∧ b < n) : ∀ a ∈ chains.flatten, a < n := by
  intro a ha
  obtain ⟨chain, hc, ha⟩ := List.mem_flatten.mp ha
  exact h.lt_of_mem hlt hc ha

end LongestChains

section Found

variable (hinj : ∀ ⦃a b c⦄, next a = some c → next b = some c → a = b)
  (hlt : ∀ ⦃a b⦄, next a = some b → a < n ∧ b < n)

include hinj hlt

theorem exists_walked (h : next a = some b) (hr : ¬ OnRing next a) :
    ∃ x, (∃ y, next x = some y) ∧ (∀ y, next y ≠ some x) ∧ [a, b] <:+: walk next n x := by
  obtain ⟨l, hl, hlast, hfirst⟩ := exists_first hinj hlt (hlt h).1 hr
  obtain ⟨l, rfl⟩ := List.getLast?_eq_some_iff.mp hlast
  have hlb : (l ++ [a] ++ [b]).IsChain fun a b => next a = some b := by
    refine List.isChain_append.mpr ⟨hl, List.isChain_singleton b, fun x hx y hy => ?_⟩
    rw [hlast] at hx
    cases hx
    cases hy
    exact h
  obtain ⟨x, m, hx⟩ := List.exists_cons_of_ne_nil (List.append_ne_nil_of_right_ne_nil l
    (List.cons_ne_nil a []))
  rw [hx] at hfirst hlb
  have hno := hfirst x rfl
  have hy : ∃ y, next x = some y := by
    cases m with
    | nil => exact ⟨b, (List.isChain_cons_cons.mp hlb).1⟩
    | cons y m => exact ⟨y, (List.isChain_cons_cons.mp hlb).1⟩
  have hw := walked_of_not_onRing hinj hlt (hlt hy.choose_spec).1 (not_onRing_of_first hno)
  refine ⟨x, hy, hno, List.IsInfix.trans ⟨l, [], ?_⟩ (hw.isPrefix hlb rfl).isInfix⟩
  simp [← hx]

variable {firsts : List Nat} (hs : firsts.Pairwise (· < ·))
  (hf : ∀ a, a ∈ firsts ↔ (∃ b, next a = some b) ∧ ∀ x, next x ≠ some a)

include hs hf

theorem longestChains_map_walk : LongestChains next (firsts.map (walk next n)) := by
  have hwalked : ∀ a ∈ firsts, Walked next a (walk next n a) := fun a ha => by
    obtain ⟨⟨b, hb⟩, hno⟩ := (hf a).mp ha
    exact walked_of_not_onRing hinj hlt (hlt hb).1 (not_onRing_of_first hno)
  have hfirst : ∀ a ∈ firsts, ∀ b ∈ (walk next n a).head?, ∀ x, next x ≠ some b := by
    intro a ha b hb
    rw [head?_walk] at hb
    exact Option.some.inj hb ▸ ((hf a).mp ha).2
  constructor
  case nodup =>
    refine List.nodup_flatten.mpr ⟨?_, List.pairwise_map.mpr (hs.imp_of_mem fun ha hb hab => ?_)⟩
    · exact List.forall_mem_map.mpr fun a ha =>
        nodup_of_isChain hinj (walk_isChain next n a) (hfirst a ha)
    · refine disjoint_of_isChain hinj (walk_isChain next n _) (hfirst _ ha) (walk_isChain next n _)
        (hfirst _ hb) ?_
      rw [head?_walk, head?_walk]
      exact fun he => hab.ne (Option.some.inj he)
  case ascending =>
    refine List.pairwise_map.mpr (hs.imp fun hab => ?_)
    rw [head?_walk, head?_walk]
    rintro _ ⟨⟩ _ ⟨⟩
    exact hab
  case step_iff =>
    intro a b
    constructor
    · rintro ⟨_, hm, hi⟩
      obtain ⟨x, hx, rfl⟩ := List.mem_map.mp hm
      exact (hwalked x hx).step_of_adjacent hi
    · rintro ⟨h, hr⟩
      obtain ⟨x, hy, hno, hi⟩ := exists_walked hinj hlt h hr
      exact ⟨_, List.mem_map_of_mem ((hf x).mpr ⟨hy, hno⟩), hi⟩
  all_goals refine List.forall_mem_map.mpr fun a ha => ?_
  case walked => exact ⟨a, hwalked a ha⟩
  case steps => exact walk_isChain next n a
  case two_le_length => exact (hwalked a ha).two_le_length ((hf a).mp ha).1.choose_spec
  case first => exact hfirst a ha
  case last => exact fun z => (hwalked a ha).next_eq_none

end Found

end Liveness

import Liveness.Graph.Chain
import Liveness.Proofs.Graph.Built
import Liveness.Proofs.Graph.LinkChains

/-! # Tight chains

Like links, tight pairs lead from different Ops to different Ops, and so tight chains never meet
either. An Op with siblings is not the second one of a tight pair, so a chain from such an Op is
the longest one with its Ops.
-/

namespace Liveness

theorem mem_zip_iff {as bs : List Nat} {p : Nat × Nat} : p ∈ as.zip bs ↔
    ∃ i, ∃ (ha : i < as.length) (hb : i < bs.length), (as[i], bs[i]) = p := by
  rw [List.mem_iff_getElem]
  constructor
  · rintro ⟨i, hi, rfl⟩
    obtain ⟨ha, hb⟩ := Nat.lt_min.mp (List.length_zip ▸ hi)
    exact ⟨i, ha, hb, List.getElem_zip.symm⟩
  · rintro ⟨i, ha, hb, rfl⟩
    exact ⟨i, List.length_zip ▸ Nat.lt_min.mpr ⟨ha, hb⟩, List.getElem_zip⟩

namespace Graph

variable {W : Type} {g : Graph W} {a b : Nat}

theorem tightNext_eq_some : g.tightNext a = some b ↔
    (g.op a).outs = [b] ∧ (g.op b).ins.length = 1 := by
  unfold tightNext
  split
  · next c hc =>
    rw [hc]
    by_cases hone : (g.op c).ins.length = 1
    · simp only [hone, if_true, Option.some.injEq, List.cons.injEq, and_true]
      exact ⟨fun h => ⟨h, h ▸ hone⟩, And.left⟩
    · simp only [hone, if_false, reduceCtorEq, List.cons.injEq, and_true, false_iff, not_and]
      exact fun h => h ▸ hone
  · next hne => exact iff_of_false (by simp) fun h => hne b h.1

theorem mem_outs_of_tightNext (h : g.tightNext a = some b) : b ∈ (g.op a).outs := by
  rw [(tightNext_eq_some.mp h).1]
  exact List.mem_singleton_self b

theorem mem_tightPairs : (a, b) ∈ g.tightPairs ↔ g.tightNext a = some b := by
  simp only [tightPairs, List.mem_filterMap, List.mem_range, Option.map_eq_some_iff,
    Prod.mk.injEq]
  constructor
  · rintro ⟨x, -, y, hy, rfl, rfl⟩
    exact hy
  · intro h
    exact ⟨a, lt_of_mem_outs (mem_outs_of_tightNext h), b, h, rfl, rfl⟩

theorem head?_tightChain (g : Graph W) (a : Nat) : (g.tightChainFrom a).head? = some a :=
  head?_walk _ _ _

theorem isChain_tightChain (g : Graph W) (a : Nat) :
    (g.tightChainFrom a).IsChain fun a b => g.tightNext a = some b := walk_isChain _ _ _

theorem siblings_congr (h : (g.op b).ins = (g.op a).ins) : g.siblings b = g.siblings a := by
  unfold siblings
  rw [h]

namespace Ordered

variable (hg : g.Ordered)

include hg

theorem ins_of_tightNext (h : g.tightNext a = some b) : (g.op b).ins = [a] := by
  obtain ⟨x, hx⟩ := List.length_eq_one_iff.mp (tightNext_eq_some.mp h).2
  have ha : a ∈ (g.op b).ins := hg.mem_ins.mpr (mem_outs_of_tightNext h)
  rw [hx, List.mem_singleton] at ha
  rw [hx, ha]

theorem tightNext_injective ⦃a b c : Nat⦄ (ha : g.tightNext a = some c)
    (hb : g.tightNext b = some c) : a = b := by
  have h := (hg.ins_of_tightNext ha).symm.trans (hg.ins_of_tightNext hb)
  exact (List.cons.inj h).1

theorem lt_of_tightNext ⦃a b : Nat⦄ (h : g.tightNext a = some b) :
    a < g.opCount ∧ b < g.opCount :=
  have hb := mem_outs_of_tightNext h
  ⟨lt_of_mem_outs hb, hg.outs_lt hb⟩

theorem lt_of_mem_tightChain (ha : a < g.opCount) (hb : b ∈ g.tightChainFrom a) :
    b < g.opCount := by
  refine lt_of_mem_isChain hg.lt_of_tightNext (g.isChain_tightChain a) (fun c hc => ?_) hb
  rw [head?_tightChain] at hc
  exact Option.some.inj hc ▸ ha

theorem longest_tightChains : LongestChains g.tightNext g.tightChains := by
  refine longestChains_map_walk hg.tightNext_injective hg.lt_of_tightNext
    (List.pairwise_lt_range.filter _) fun a => ?_
  simp only [List.mem_filter, List.mem_range, Bool.and_eq_true, Option.isSome_iff_exists,
    Bool.not_eq_true', List.contains_eq_mem, decide_eq_false_iff_not, List.mem_filterMap, not_exists,
    not_and, ne_eq]
  constructor
  · rintro ⟨-, hb, hno⟩
    exact ⟨hb, fun x hx => hno x (hg.lt_of_tightNext hx).1 hx⟩
  · rintro ⟨⟨b, hb⟩, hno⟩
    exact ⟨(hg.lt_of_tightNext hb).1, ⟨b, hb⟩, fun x _ => hno x⟩

theorem ne_of_mem_zip_tightChains (hab : a ≠ b) {p : Nat × Nat}
    (hp : p ∈ (g.tightChainFrom a).zip (g.tightChainFrom b)) : p.1 ≠ p.2 := by
  obtain ⟨i, hi, hj, rfl⟩ := mem_zip_iff.mp hp
  intro he
  have hh := head?_eq_of_getElem hg.tightNext_injective (g.isChain_tightChain a)
    (g.isChain_tightChain b) hi hj he
  rw [head?_tightChain, head?_tightChain] at hh
  exact hab (Option.some.inj hh)

theorem lt_of_mem_siblings (hb : b ∈ g.siblings a) : b < g.opCount := by
  unfold siblings at hb
  split at hb
  · exact hg.lt_of_mem_inputs hb
  · exact hg.outs_lt (List.mem_filter.mp hb).1

theorem ins_of_mem_siblings (hb : b ∈ g.siblings a) : (g.op b).ins = (g.op a).ins := by
  unfold siblings at hb
  split at hb
  · next hnil =>
    obtain ⟨op, hop, rfl⟩ := List.mem_map.mp hb
    obtain ⟨hop, hempty⟩ := List.mem_filter.mp hop
    rw [ops_toList] at hop
    obtain ⟨i, hi, rfl⟩ := List.mem_map.mp hop
    rw [hg.op_address i (List.mem_range.mp hi), hnil]
    exact List.isEmpty_iff.mp hempty
  · next i is hins =>
    rw [hins]
    exact beq_iff_eq.mp (List.mem_filter.mp hb).2

theorem tightNext_ne_of_siblings (hl : 1 < (g.siblings a).length) (x : Nat) :
    g.tightNext x ≠ some a := by
  intro hx
  unfold siblings at hl
  rw [hg.ins_of_tightNext hx] at hl
  dsimp only at hl
  have hle := List.length_filter_le (fun c => (g.op c).ins == [x]) (g.op x).outs
  rw [(tightNext_eq_some.mp hx).1] at hle hl
  exact Nat.lt_irrefl _ (hl.trans_le hle)

theorem head_tightChain (hl : 1 < (g.siblings a).length) :
    ∀ b ∈ (g.tightChainFrom a).head?, ∀ x, g.tightNext x ≠ some b := by
  intro b hb
  rw [head?_tightChain] at hb
  exact Option.some.inj hb ▸ hg.tightNext_ne_of_siblings hl

theorem nodup_tightChain (hl : 1 < (g.siblings a).length) : (g.tightChainFrom a).Nodup :=
  nodup_of_isChain hg.tightNext_injective (g.isChain_tightChain a) (hg.head_tightChain hl)

theorem disjoint_tightChains (ha : 1 < (g.siblings a).length) (hb : 1 < (g.siblings b).length)
    (hne : a ≠ b) : (g.tightChainFrom a).Disjoint (g.tightChainFrom b) := by
  refine disjoint_of_isChain hg.tightNext_injective (g.isChain_tightChain a)
    (hg.head_tightChain ha) (g.isChain_tightChain b) (hg.head_tightChain hb) ?_
  rw [head?_tightChain, head?_tightChain]
  exact fun he => hne (Option.some.inj he)

end Ordered

end Graph

end Liveness

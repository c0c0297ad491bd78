import Liveness.Proofs.Schedule.Span
import Liveness.Proofs.Refinement.PassSuccess

/-! # What edits of Allocs cost

Leaving out an Alloc takes its part out of the total liveness, and giving it another weight
changes its part alone. So when one Alloc takes over the weights of others with the same Ops,
the total stays as it is.
-/

namespace Liveness

open Success

variable {W : Type} [Weight W] {g h k : Graph W} {r : Nat} {placeOf : Nat → Nat}

namespace Graph

section Lookup

theorem alloc_detachAll {as : List Nat} (hr : r < g.allocCount) (x : Nat) :
    (as.foldl (fun g a => g.detach a r) g).alloc x =
      if x = r then { g.alloc x with ops := as.foldl List.erase (g.alloc x).ops }
      else g.alloc x := by
  induction as generalizing g with
  | nil => split <;> rfl
  | cons a as ih =>
    rw [List.foldl_cons, ih ((allocCount_detach g a r).symm ▸ hr), alloc_detach hr]
    split <;> rfl

theorem alloc_releaseAll (h' : g.releaseAll r = .ok h) (x : Nat) :
    h.alloc x = if x = r then { g.alloc x with ops := [] } else g.alloc x := by
  obtain ⟨hr, rfl⟩ := releaseAll_eq_ok.mp h'
  rw [alloc_detachAll hr]
  split
  · next he => rw [he, foldl_erase_self]
  · rfl

theorem alloc_reweigh {w : W} (h' : g.reweigh r w = .ok h) (x : Nat) :
    h.alloc x = if x = r then { g.alloc x with weight := w } else g.alloc x := by
  obtain ⟨hr, -, rfl⟩ := reweigh_eq_ok.mp h'
  exact alloc_modifyAlloc hr _

theorem foldlM_release {pairs : List (Nat × Nat)} (hg : g.WellFormed)
    (h' : pairs.foldlM (fun g p => g.release p.1 p.2) g = .ok h) :
    h.allocCount = g.allocCount ∧ ∀ x, (h.alloc x).weight = (g.alloc x).weight ∧
      ∀ a, a ∈ (h.alloc x).ops ↔ a ∈ (g.alloc x).ops ∧ (a, x) ∉ pairs := by
  induction pairs generalizing g with
  | nil =>
    obtain rfl := pure_eq_ok.mp h'
    simp
  | cons p pairs ih =>
    rw [List.foldlM_cons, bind_eq_ok] at h'
    obtain ⟨k, hk, h'⟩ := h'
    obtain ⟨hcount, halloc⟩ := ih (release_reallocates hg hk).wellFormed h'
    obtain ⟨ha, hr, rfl⟩ := release_eq_ok.mp hk
    refine ⟨hcount.trans (allocCount_detach g _ _), fun x => ⟨?_, fun a => ?_⟩⟩
    · rw [(halloc x).1, alloc_detach hr]
    · rw [(halloc x).2, alloc_detach hr, List.mem_cons, not_or, Prod.ext_iff]
      dsimp only
      split
      · next he =>
        rw [mem_erase (hg.ops_sorted x)]
        simp only [he, and_true]
        tauto
      · next he => simp [he]

theorem Supplied.pairwise_address (hg : g.Supplied) :
    g.allocs.toList.Pairwise fun alloc other => alloc.address < other.address := by
  rw [List.pairwise_iff_getElem]
  intro i j hi hj hij
  have haddress : ∀ {r} (hr : r < g.allocs.toList.length), g.allocs.toList[r].address = r := by
    intro r hr
    have hlt : r < g.allocs.size := hr
    have hr := hg.alloc_address r hlt
    rwa [alloc, Array.getD, dif_pos hlt] at hr
  rwa [haddress, haddress]

theorem Supplied.nodup_addresses (hg : g.Supplied) {allocs : List (Alloc W)}
    (hs : allocs.Sublist g.allocs.toList) : (allocs.map Alloc.address).Nodup :=
  List.pairwise_map.mpr ((hg.pairwise_address.sublist hs).imp Nat.ne_of_lt)

omit [Weight W] in
theorem mem_twins {alloc other : Alloc W} : other ∈ g.twins alloc ↔
    other ∈ g.allocs.toList ∧ alloc.address < other.address ∧ other.ops = alloc.ops := by
  simp [twins]

theorem Supplied.alloc_twins (hg : g.Supplied) {alloc : Alloc W} (hm : alloc ∈ g.allocs.toList) :
    ∀ other ∈ alloc :: g.twins alloc, g.alloc other.address = other ∧ other.ops = alloc.ops := by
  refine List.forall_mem_cons.mpr ⟨⟨(hg.address_lt hm).2, rfl⟩, fun other ho => ?_⟩
  obtain ⟨ho, -, hops⟩ := mem_twins.mp ho
  exact ⟨(hg.address_lt ho).2, hops⟩

theorem Supplied.nodup_twins (hg : g.Supplied) (alloc : Alloc W) :
    ((alloc :: g.twins alloc).map Alloc.address).Nodup := by
  refine List.nodup_cons.mpr ⟨fun hx => ?_, hg.nodup_addresses List.filter_sublist⟩
  obtain ⟨x, hx, he⟩ := List.mem_map.mp hx
  exact Nat.ne_of_lt (mem_twins.mp hx).2.1 he.symm

theorem Supplied.pairwise_leaders (hg : g.Supplied) :
    g.leaders.Pairwise fun alloc other => alloc.ops ≠ other.ops := by
  apply (hg.pairwise_address.filter _).imp_of_mem
  intro alloc other ha ho hlt hops
  have hfirst := (List.mem_filter.mp ho).2
  simp only [Bool.and_eq_true, List.all_eq_true, Bool.or_eq_true, decide_eq_true_eq,
    bne_iff_ne] at hfirst
  rcases hfirst.1.2 alloc (List.mem_filter.mp ha).1 with hle | hne
  · exact Nat.not_le.mpr hlt hle
  · exact hne hops

end Lookup

variable [ExactWeight W]

theorem totalLiveness_add (hc : h.allocCount = g.allocCount) (hr : r < g.allocCount)
    (ho : ∀ x, x ≠ r → h.alloc x = g.alloc x) (placeOf : Nat → Nat) :
    h.totalLiveness placeOf + g.allocLiveness placeOf r =
      g.totalLiveness placeOf + h.allocLiveness placeOf r := by
  have hm := Finset.mem_range.mpr hr
  have hrest : ∑ x ∈ (Finset.range g.allocCount).erase r, h.allocLiveness placeOf x =
      ∑ x ∈ (Finset.range g.allocCount).erase r, g.allocLiveness placeOf x := by
    apply Finset.sum_congr rfl
    intro x hx
    rw [allocLiveness, allocLiveness, ho x (Finset.ne_of_mem_erase hx)]
  rw [totalLiveness_eq, totalLiveness_eq, hc, ← Finset.add_sum_erase _ _ hm,
    ← Finset.add_sum_erase _ _ hm, hrest]
  abel

theorem allocLiveness_eq_zero (h : (g.alloc r).ops = []) : g.allocLiveness placeOf r = 0 := by
  rw [allocLiveness, h]
  exact zero_smul Int _

theorem totalLiveness_releaseAll (h' : g.releaseAll r = .ok h) :
    h.totalLiveness placeOf + g.allocLiveness placeOf r = g.totalLiveness placeOf := by
  have hr := (releaseAll_eq_ok.mp h').1
  have hsame : ∀ x, x ≠ r → h.alloc x = g.alloc x := fun x hx => by
    rw [alloc_releaseAll h', if_neg hx]
  rw [totalLiveness_add (allocCount_releaseAll h') hr hsame,
    allocLiveness_eq_zero (by rw [alloc_releaseAll h', if_pos rfl]), add_zero]

theorem foldlM_releaseAll {rs : List Nat} (hn : rs.Nodup) (h' : rs.foldlM releaseAll g = .ok h) :
    h.allocCount = g.allocCount ∧ (∀ x, x ∉ rs → h.alloc x = g.alloc x) ∧
      ∀ placeOf, h.totalLiveness placeOf + (rs.map (g.allocLiveness placeOf)).sum =
        g.totalLiveness placeOf := by
  induction rs generalizing g with
  | nil =>
    obtain rfl := pure_eq_ok.mp h'
    simp
  | cons r rs ih =>
    rw [List.foldlM_cons, bind_eq_ok] at h'
    obtain ⟨k, hk, h'⟩ := h'
    obtain ⟨hr, hn⟩ := List.nodup_cons.mp hn
    obtain ⟨hcount, halloc, htotal⟩ := ih hn h'
    have hsame : ∀ x, x ≠ r → k.alloc x = g.alloc x := fun x hx => by
      rw [alloc_releaseAll hk, if_neg hx]
    refine ⟨hcount.trans (allocCount_releaseAll hk), fun x hx => ?_, fun placeOf => ?_⟩
    · obtain ⟨hxr, hx⟩ := List.ne_and_not_mem_of_not_mem_cons hx
      exact (halloc x hx).trans (hsame x hxr)
    · have hrest : rs.map (k.allocLiveness placeOf) = rs.map (g.allocLiveness placeOf) := by
        apply List.map_congr_left
        intro x hx
        rw [allocLiveness, allocLiveness, hsame x fun he => hr (he ▸ hx)]
      rw [List.map_cons, List.sum_cons, ← totalLiveness_releaseAll hk, ← htotal placeOf, hrest]
      abel

theorem foldl_add_weight (others : List (Alloc W)) (w : W) :
    others.foldl (fun w other => w + other.weight) w = w + (others.map Alloc.weight).sum := by
  induction others generalizing w with
  | nil => simp
  | cons other others ih => rw [List.foldl_cons, ih, List.map_cons, List.sum_cons, add_assoc]

/-- When an Alloc takes over the weights of others with the same Ops, the total stays. -/
theorem absorb_totalLiveness {alloc : Alloc W} {others : List (Alloc W)}
    (ha : g.alloc alloc.address = alloc)
    (ho : ∀ other ∈ others, g.alloc other.address = other ∧ other.ops = alloc.ops)
    (hn : ((alloc :: others).map Alloc.address).Nodup) (h' : g.absorb alloc others = .ok h) :
    (∀ x, x ∉ (alloc :: others).map Alloc.address → h.alloc x = g.alloc x) ∧
      ∀ placeOf, h.totalLiveness placeOf = g.totalLiveness placeOf := by
  obtain ⟨k, hk, h'⟩ := bind_eq_ok.mp h'
  rw [← List.foldlM_map (f := Alloc.address)] at hk
  obtain ⟨hna, hn⟩ := List.nodup_cons.mp hn
  obtain ⟨-, halloc, htotal⟩ := foldlM_releaseAll hn hk
  have hka : k.alloc alloc.address = alloc := (halloc _ hna).trans ha
  constructor
  · intro x hx
    obtain ⟨hxa, hx⟩ := List.ne_and_not_mem_of_not_mem_cons hx
    rw [alloc_reweigh h', if_neg hxa, halloc x hx]
  · intro placeOf
    let span : Int := spanOf (alloc.ops.map placeOf)
    have hothers : (others.map Alloc.address).map (g.allocLiveness placeOf) =
        others.map fun other => span • other.weight := by
      rw [List.map_map]
      apply List.map_congr_left
      intro other hm
      rw [Function.comp_apply, allocLiveness, (ho other hm).1, (ho other hm).2]
    have hbefore : k.allocLiveness placeOf alloc.address = span • alloc.weight := by
      rw [allocLiveness, hka]
    have hafter : h.allocLiveness placeOf alloc.address =
        span • alloc.weight + (others.map fun other => span • other.weight).sum := by
      rw [allocLiveness, alloc_reweigh h', if_pos rfl, hka]
      dsimp only
      rw [foldl_add_weight, smul_add, List.smul_sum, List.map_map]
      rfl
    have hsame : ∀ x, x ≠ alloc.address → h.alloc x = k.alloc x := fun x hx => by
      rw [alloc_reweigh h', if_neg hx]
    have hadd := totalLiveness_add (allocCount_reweigh h') (reweigh_eq_ok.mp h').1 hsame placeOf
    have hk := htotal placeOf
    rw [hothers] at hk
    rw [hbefore, hafter, ← add_assoc, add_right_comm, add_right_cancel_iff] at hadd
    exact hadd.trans hk

theorem foldlM_absorb {leaders : List (Alloc W)} (hg : g.Supplied)
    (hm : ∀ alloc ∈ leaders, alloc ∈ g.allocs.toList)
    (hd : leaders.Pairwise fun alloc other => alloc.ops ≠ other.ops)
    (hs : ∀ alloc ∈ leaders, ∀ x, (g.alloc x).ops = alloc.ops → k.alloc x = g.alloc x)
    (h' : leaders.foldlM (fun h alloc => h.absorb alloc (g.twins alloc)) k = .ok h) :
    h.totalLiveness placeOf = k.totalLiveness placeOf := by
  induction leaders generalizing k with
  | nil =>
    obtain rfl := pure_eq_ok.mp h'
    rfl
  | cons alloc leaders ih =>
    rw [List.foldlM_cons, bind_eq_ok] at h'
    obtain ⟨l, hl, h'⟩ := h'
    obtain ⟨hda, hd⟩ := List.pairwise_cons.mp hd
    have halloc := hg.alloc_twins (hm alloc List.mem_cons_self)
    have hstill : ∀ other ∈ alloc :: g.twins alloc, k.alloc other.address = other := by
      intro other ho
      obtain ⟨hother, hops⟩ := halloc other ho
      refine (hs alloc List.mem_cons_self _ ?_).trans hother
      rw [hother, hops]
    obtain ⟨hsame, htotal⟩ := absorb_totalLiveness (hstill alloc List.mem_cons_self)
      (fun other ho => ⟨hstill other (List.mem_cons_of_mem _ ho),
        (halloc other (List.mem_cons_of_mem _ ho)).2⟩) (hg.nodup_twins alloc) hl
    rw [← htotal placeOf]
    apply ih (fun x hx => hm x (List.mem_cons_of_mem _ hx)) hd _ h'
    intro leader hleader x hx
    rw [hsame x, hs leader (List.mem_cons_of_mem _ hleader) x hx]
    intro hxa
    obtain ⟨y, hy, rfl⟩ := List.mem_map.mp hxa
    obtain ⟨hyg, hyops⟩ := halloc y hy
    rw [hyg, hyops] at hx
    exact hda leader hleader hx

theorem combine_totalLiveness {result : Refined W} (hg : g.Supplied)
    (h' : g.combine = .ok result) :
    result.graph.totalLiveness placeOf = g.totalLiveness placeOf := by
  obtain ⟨k, hk, h'⟩ := bind_eq_ok.mp h'
  obtain rfl := pure_eq_ok.mp h'
  exact foldlM_absorb hg (fun _ ha => (List.mem_filter.mp ha).1) hg.pairwise_leaders
    (fun _ _ _ _ => rfl) hk

end Graph

end Liveness

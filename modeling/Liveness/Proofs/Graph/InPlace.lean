import Liveness.Graph.InPlace
import Liveness.Proofs.Graph.Repeated

/-! # Edits in place change graphs as a whole

On a built graph every public edit in place does what the edit of the whole graph does, and at
an error it has written nothing.
-/

namespace Liveness.InPlace

open Liveness.Graph Success

variable {W α β : Type} {g h : Graph W} {u v r : Nat}

section Steps

/-- What is left of an edit of the whole graph: the old graph if it fails. -/
def outcome (g : Graph W) : Except Error (Graph W × α) → EStateM.Result Error (Graph W) α
  | .ok (h, a) => .ok a h
  | .error e => .error e g

theorem bind_ok {x : InPlace W α} {k : α → InPlace W β} {a : α} (hx : x g = .ok a h) :
    (x >>= k) g = k a h := by
  simp only [bind, EStateM.bind, hx]

theorem check_bind {f : Graph W → Except Error Unit} {x : InPlace W α}
    {y : Except Error (Graph W × α)} (hx : f g = .ok () → x g = outcome g y) :
    (check f >>= fun _ => x) g = outcome g (f g >>= fun _ => y) := by
  cases hf : f g with
  | error e => simp only [bind, EStateM.bind, Except.bind, check, hf, outcome]
  | ok _ =>
    refine Eq.trans ?_ (hx hf)
    simp only [bind, EStateM.bind, check, hf]

theorem forM_check (as : List β) (f : β → Graph W → Except Error Unit) :
    (as.forM fun a => check (f a)) = check fun g => as.forM fun a => f a g := by
  induction as with
  | nil => rfl
  | cons a as ih =>
    funext g
    have hl : ((a :: as).forM fun a => check (f a)) =
        check (f a) >>= fun _ => as.forM fun a => check (f a) := rfl
    have hr : (a :: as).forM (fun a => f a g) = f a g >>= fun _ => as.forM fun a => f a g := rfl
    rw [hl, ih]
    simp only [bind, EStateM.bind, check, hr]
    cases f a g <;> rfl

theorem forM_map {γ : Type} (as : List γ) (f : γ → β) (step : β → InPlace W Unit) :
    (as.map f).forM step = as.forM fun a => step (f a) := by
  rw [List.forM_eq_forM, List.forM_map]
  rfl

theorem forM_append (as bs : List β) (step : β → InPlace W Unit) :
    (as ++ bs).forM step = as.forM step >>= fun _ => bs.forM step := by
  rw [List.forM_eq_forM, List.forM_append]

theorem forM_ok {P : Graph W → Prop} {as : List β} {step : β → InPlace W Unit}
    {f : Graph W → β → Graph W} (hg : P g)
    (hs : ∀ a ∈ as, ∀ g, P g → step a g = .ok () (f g a) ∧ P (f g a)) :
    as.forM step g = .ok () (as.foldl f g) := by
  induction as generalizing g with
  | nil => rfl
  | cons a as ih =>
    obtain ⟨ha, hP⟩ := hs a List.mem_cons_self g hg
    have hl : (a :: as).forM step = step a >>= fun _ => as.forM step := rfl
    rw [hl, bind_ok ha]
    exact ih hP fun b hb => hs b (List.mem_cons_of_mem a hb)

theorem map_add_range_succ (n k : Nat) : (List.range (k + 1)).map (n + ·) =
    n :: (List.range k).map (n + 1 + ·) := by
  rw [List.range_succ_eq_map, List.map_cons, List.map_map]
  refine congrArg (n :: ·) (List.map_congr_left fun i _ => ?_)
  dsimp only [Function.comp]
  omega

theorem attach_ok (a r : Nat) : attach a r g = .ok () (g.attach a r) := rfl

theorem insert_eq_self {x : Nat} {ys : List Nat} (hs : ys.Pairwise (· < ·)) (hx : x ∈ ys) :
    Ascending.insert x ys = ys :=
  Ascending.eq_of_mem_iff (Ascending.insert_pairwise hs) hs fun y => by
    rw [Ascending.mem_insert]
    exact ⟨fun hy => hy.elim (· ▸ hx) id, .inr⟩

theorem connect_apply : connect u v g =
    (if !(g.op u).outs.contains v then
      modifyOp v fun op => { op with ins := Ascending.insert u op.ins } else pure () : InPlace W Unit)
      (g.modifyOp u fun op => { op with outs := Ascending.insert v op.outs }) := rfl

variable [Weight W]

/-- A constraint is new at its second Op exactly if it is new at the first. -/
theorem connect_ok (hg : g.WellFormed) (hu : u < g.opCount) (hv : v < g.opCount) :
    connect u v g = .ok () (g.connect u v) := by
  by_cases hm : v ∈ (g.op u).outs
  · have hself : g.modifyOp u (fun op => { op with outs := Ascending.insert v op.outs }) =
        g.connect u v := by
      refine ext_addresses (by simp) rfl (fun x _ => ?_) fun r _ => rfl
      rw [op_modifyOp hu, op_connect hu hv]
      by_cases hx : x = v
      · subst hx
        rw [if_pos rfl, insert_eq_self (hg.ins_sorted x) (hg.mem_ins.mpr hm)]
        split <;> rfl
      · rw [if_neg hx]
        split <;> rfl
    rw [← hself, connect_apply, if_neg (by simpa using hm)]
    rfl
  · rw [connect_apply, if_pos (by simpa using hm)]
    rfl

theorem connectAll_ok {pairs : List (Nat × Nat)} (hg : g.Built)
    (hp : ∀ p ∈ pairs, p.1 < g.opCount ∧ p.2 < g.opCount ∧ p.1 ≠ p.2) :
    (pairs.forM fun p => connect p.1 p.2) g = .ok () (g.connectAll pairs) := by
  refine forM_ok (P := fun h => h.Built ∧ h.opCount = g.opCount) ⟨hg, rfl⟩
    fun p hm h ⟨hb, hc⟩ => ?_
  obtain ⟨hu, hv, hne⟩ := hc ▸ hp p hm
  exact ⟨connect_ok hb.wellFormed hu hv, hb.connect hu hv hne, by rw [opCount_connect, hc]⟩

omit [Weight W] in
theorem attachEach_ok (a : Nat) (rs : List Nat) :
    (rs.forM fun r => attach a r) g = .ok () (rs.foldl (fun g r => g.attach a r) g) :=
  forM_ok (P := fun _ => True) trivial fun r _ _ _ => ⟨attach_ok a r, trivial⟩

omit [Weight W] in
theorem attachAll_ok (as : List Nat) (r : Nat) :
    (as.forM fun a => attach a r) g = .ok () (g.attachAll as r) :=
  forM_ok (P := fun _ => True) trivial fun a _ _ _ => ⟨attach_ok a r, trivial⟩

end Steps

section Edits

variable [Weight W] (hg : g.Built)

omit [Weight W] in
theorem need_eq (a r : Nat) : need a r g = outcome g do return (← g.need a r, ()) := by
  unfold need Graph.need
  simp only [bind_assoc, pure_bind]
  exact check_bind fun _ => check_bind fun _ => rfl

omit [Weight W] in
theorem needAll_eq (as : List Nat) (r : Nat) :
    needAll as r g = outcome g do return (← g.needAll as r, ()) := by
  unfold needAll Graph.needAll
  rw [forM_check]
  simp only [bind_assoc, pure_bind]
  exact check_bind fun _ => check_bind fun _ => attachAll_ok as r

omit [Weight W] in
theorem unconstrain_eq (u v : Nat) :
    unconstrain u v g = outcome g do return (← g.unconstrain u v, ()) := by
  unfold unconstrain Graph.unconstrain
  simp only [bind_assoc, pure_bind]
  exact check_bind fun _ => check_bind fun _ => rfl

omit [Weight W] in
theorem release_eq (a r : Nat) : release a r g = outcome g do return (← g.release a r, ()) := by
  unfold release Graph.release
  simp only [bind_assoc, pure_bind]
  exact check_bind fun _ => check_bind fun _ => rfl

theorem reweigh_eq (r : Nat) (w : W) :
    reweigh r w g = outcome g do return (← g.reweigh r w, ()) := by
  unfold reweigh Graph.reweigh
  simp only [bind_assoc]
  refine check_bind fun _ => ?_
  cases Weight.defect? w <;> rfl

omit [Weight W] in
theorem addAttractions_eq (w : W) (pairs : List (Nat × Nat)) : addAttractions w pairs g =
    .ok ((List.range pairs.length).map (g.allocCount + ·))
      (pairs.foldl (fun g p => g.addAttraction w p.1 p.2) g) := by
  induction pairs generalizing g with
  | nil => rfl
  | cons p ps ih =>
    have hstep : addAttractions w (p :: ps) g =
        (addAttractions w ps >>= fun rs => pure (g.allocCount :: rs)) (g.addAttraction w p.1 p.2) :=
      rfl
    have hc : (g.addAttraction w p.1 p.2).allocCount = g.allocCount + 1 := by
      simp [Graph.addAttraction]
    rw [hstep, bind_ok ih, hc, List.length_cons, map_add_range_succ]
    rfl

omit [Weight W] in
theorem attract_eq (pairs : List (Nat × Nat)) (w : W) :
    attract pairs w g = outcome g (g.attract pairs w) := by
  unfold attract Graph.attract
  rw [forM_check]
  exact check_bind fun _ => addAttractions_eq w pairs

omit [Weight W] in
theorem modifyAlloc_congr {f f' : Alloc W → Alloc W} [Zero W] (hr : r < g.allocCount)
    (hf : f (g.alloc r) = f' (g.alloc r)) : g.modifyAlloc r f = g.modifyAlloc r f' := by
  refine ext_addresses rfl (by simp) (fun _ _ => rfl) fun q _ => ?_
  rw [alloc_modifyAlloc hr, alloc_modifyAlloc hr]
  split
  · next he => rw [he, hf]
  · rfl

omit [Weight W] in
theorem detachAll_eq (as : List Nat) (r : Nat) : as.foldl (fun g a => g.detach a r) g =
    as.foldl (fun g a => g.modifyOp a fun op => { op with allocs := op.allocs.erase r })
      (g.modifyAlloc r fun alloc => { alloc with ops := as.foldl List.erase alloc.ops }) := by
  induction as generalizing g with
  | nil =>
    refine congrArg (Graph.mk g.ops) (Array.ext (by simp) fun i _ _ => ?_)
    rw [Array.getElem_modify]
    split <;> rfl
  | cons a as ih =>
    refine (ih (g := g.detach a r)).trans (congrArg (as.foldl _) ?_)
    refine congrArg (Graph.mk _) (Array.ext (by simp [detach, Graph.modifyAlloc, Graph.modifyOp])
      fun i _ _ => ?_)
    simp only [detach, Graph.modifyAlloc, Graph.modifyOp, Array.getElem_modify, List.foldl_cons]
    split <;> rfl

theorem releaseAll_eq (r : Nat) :
    releaseAll r g = outcome g do return (← g.releaseAll r, ()) := by
  unfold releaseAll Graph.releaseAll
  simp only [bind_assoc, pure_bind]
  refine check_bind fun h => ?_
  have hr := checkAlloc_eq_ok.mp h
  have hempty : g.modifyAlloc r (fun alloc => { alloc with ops := [] }) =
      g.modifyAlloc r fun alloc =>
        { alloc with ops := (g.alloc r).ops.foldl List.erase alloc.ops } :=
    modifyAlloc_congr hr (by rw [foldl_erase_self])
  rw [detachAll_eq, ← hempty]
  refine (bind_ok (h := g) rfl).trans ?_
  refine (bind_ok (h := g.modifyAlloc r fun alloc => { alloc with ops := [] }) rfl).trans ?_
  exact forM_ok (P := fun _ => True) trivial fun a _ _ _ => ⟨rfl, trivial⟩

include hg

theorem addOpWith_eq (ins allocs : List Nat) (name : String) : addOpWith ins allocs name g =
    outcome g do return (← g.addOpWith ins allocs name, g.opCount) := by
  unfold addOpWith Graph.addOpWith
  rw [forM_check, forM_check]
  simp only [bind_assoc, pure_bind]
  refine check_bind fun hi => check_bind fun _ => ?_
  have hpairs : ∀ p ∈ ins.map fun i => (i, g.opCount),
      p.1 < (g.addOp name).opCount ∧ p.2 < (g.addOp name).opCount ∧ p.1 ≠ p.2 := by
    intro p hp
    obtain ⟨i, hm, rfl⟩ := List.mem_map.mp hp
    have := checkOps_eq_ok.mp hi i hm
    rw [opCount_addOp]
    exact ⟨Nat.lt_succ_of_lt this, Nat.lt_succ_self _, Nat.ne_of_lt this⟩
  have hconnect := connectAll_ok (hg.addOp name) hpairs
  rw [forM_map] at hconnect
  refine (bind_ok (h := g.addOp name) rfl).trans ?_
  refine (bind_ok hconnect).trans ?_
  exact bind_ok (attachEach_ok g.opCount allocs)

theorem constrain_eq (u v : Nat) :
    constrain u v g = outcome g do return (← g.constrain u v, ()) := by
  unfold constrain Graph.constrain
  simp only [bind_assoc, pure_bind]
  refine check_bind fun h => ?_
  obtain ⟨hu, hv, -⟩ := checkConstraint_eq_ok.mp h
  exact connect_ok hg.wellFormed hu hv

theorem constrainAll_eq (pairs : List (Nat × Nat)) :
    constrainAll pairs g = outcome g do return (← g.constrainAll pairs, ()) := by
  unfold constrainAll Graph.constrainAll
  rw [forM_check]
  simp only [bind_assoc, pure_bind]
  refine check_bind fun h => connectAll_ok hg fun p hp => ?_
  exact checkConstraint_eq_ok.mp (forM_eq_ok.mp h p hp)

theorem link_eq (u v : Nat) : link u v g = outcome g do return (← g.link u v, ()) := by
  unfold link Graph.link
  simp only [bind_assoc, pure_bind]
  refine check_bind fun h => check_bind fun _ => check_bind fun _ => ?_
  obtain ⟨hu, hv, -⟩ := checkConstraint_eq_ok.mp h
  exact bind_ok (connect_ok hg.wellFormed hu hv)

theorem addBottlenecks_eq (stem : String) {bins : List (List Nat)} {previous : Option Nat} {i : Nat}
    (hp : ∀ a ∈ previous, a < g.opCount) (hb : ∀ bin ∈ bins, ∀ a ∈ bin, a < g.opCount) :
    addBottlenecks stem previous i bins g = .ok (g.addBottlenecks stem previous i bins).2
      (g.addBottlenecks stem previous i bins).1 := by
  induction bins generalizing g previous i with
  | nil => rfl
  | cons bin rest ih =>
    cases rest with
    | nil => rfl
    | cons next bins =>
      have hbin := hb bin List.mem_cons_self
      have hnext := hb next (List.mem_cons_of_mem bin List.mem_cons_self)
      have hk := hg.addBottleneck hp hbin hnext (stem ++ s!"{i}")
      have hc : (g.addBottleneck previous bin next (stem ++ s!"{i}")).opCount = g.opCount + 1 := by
        simp [Graph.addBottleneck]
      have hpairs := Built.bottleneck_inRange (stem ++ s!"{i}") hp hbin hnext
      have hconnect := connectAll_ok (hg.addOp (stem ++ s!"{i}")) hpairs
      rw [forM_append, forM_append, forM_map, forM_map, forM_map] at hconnect
      have hrest := ih hk (i := i + 1)
        (fun a (ha : a ∈ some g.opCount) => by obtain rfl := Option.some.inj ha; omega)
        fun b hm a ha => by
          have := hb b (List.mem_cons_of_mem bin hm) a ha
          omega
      unfold addBottlenecks
      refine (bind_ok (h := g.addOp (stem ++ s!"{i}")) rfl).trans ?_
      simp only [← bind_assoc]
      rw [bind_assoc, bind_ok hconnect]
      exact bind_ok hrest

theorem separateBins_eq (bins : List (List Nat)) (stem : String) :
    separateBins bins stem g = outcome g (g.separateBins bins stem) := by
  unfold separateBins Graph.separateBins
  rw [forM_check]
  refine check_bind fun h => ?_
  exact addBottlenecks_eq hg stem (by simp) fun bin hm a ha =>
    checkOps_eq_ok.mp h a (List.mem_flatten.mpr ⟨bin, hm, ha⟩)

end Edits

section Attractors

variable {g : Graph (Tiered Float)}

theorem addAttractors_eq (items : List (Nat × Tiered Float)) :
    addAttractors items g = .ok (g.addAttractors items).2 (g.addAttractors items).1 := by
  induction items generalizing g with
  | nil => rfl
  | cons p ps ih =>
    unfold addAttractors Graph.addAttractors
    split
    · exact ih
    · have hstep := bind_ok (k := fun attractors => pure (g.opCount :: attractors))
        (ih (g := g.addAttractor p.1 p.2))
      exact hstep

theorem attractToStart_eq (hg : g.Built) (as : List Nat) (priorities : List Decimal.Signed)
    (tier : Int) (step : Float) : attractToStart as priorities tier step g =
      outcome g (g.attractToStart as priorities tier step) := by
  unfold attractToStart Graph.attractToStart
  by_cases hl : as.length = priorities.length
  · by_cases ht : Tiered.isTier tier = true
    · simp only [hl, ne_eq, not_true_eq_false, if_false, ht, Bool.not_true, Bool.false_eq_true]
      rw [forM_check]
      refine check_bind fun ha => (bind_ok (h := g) rfl).trans ?_
      by_cases hd : (Attraction.distinct priorities).length ≤ 1
      · rw [if_pos hd, if_pos hd]
        rfl
      rw [if_neg hd, if_neg hd]
      generalize hw : as.zip _ = items
      have hi : ∀ p ∈ items, p.1 < g.opCount := by
        rw [← hw]
        rintro ⟨a, w⟩ hp
        exact checkOps_eq_ok.mp ha a (List.of_mem_zip hp).1
      obtain ⟨hb, hle, hs, hm⟩ := hg.addAttractors hi
      have hchain := connectAll_ok hb (Built.chain_inRange hs fun a ha => (hm a ha).2)
      refine (bind_ok (addAttractors_eq items)).trans ((bind_ok hchain).trans ?_)
      cases hlast : (g.addAttractors items).2.getLast? with
      | none => rfl
      | some last =>
        have hlt := hm last (List.mem_of_getLast? hlast)
        have hc := hb.connectChain hs fun a ha => (hm a ha).2
        have hinputs := connectAll_ok hc (hg.wellFormed.toOrdered.inputs_inRange hlt.1
          (hlt.2.trans_eq (opCount_connectChain ..).symm))
        rw [forM_map] at hinputs
        exact bind_ok hinputs
    · simp only [hl, ne_eq, not_true_eq_false, if_false, ht, Bool.not_false, if_true]
      rfl
  · simp only [ne_eq, hl, not_false_eq_true, if_true]
    rfl

end Attractors

theorem addOps_eq (names : List String) : names.mapM addOp g =
    .ok ((List.range names.length).map (g.opCount + ·)) (g.addOps names) := by
  induction names generalizing g with
  | nil => rfl
  | cons name names ih =>
    rw [List.mapM_cons]
    refine (bind_ok (h := g.addOp name) rfl).trans ((bind_ok ih).trans ?_)
    rw [opCount_addOp, List.length_cons, map_add_range_succ]
    rfl

end Liveness.InPlace

namespace Liveness.Call

open Liveness.Graph Success InPlace

/-- A call on a built graph gives the edited graph, or fails with the graph as it was. -/
theorem perform_eq {g : Graph (Tiered Float)} (hg : g.Built) (c : Call) :
    c.perform g = outcome g (c.edit g) := by
  have hunit : ∀ {x : InPlace (Tiered Float) Unit} {y : Except Error (Graph (Tiered Float))},
      x g = outcome g (do return (← y, ())) →
        (x >>= fun _ => pure []) g = outcome g (do return (← y, ([] : List Nat))) := by
    intro x y hx
    simp only [bind, EStateM.bind, hx]
    cases y <;> rfl
  cases c with
  | addOp name => rfl
  | addOps names => exact addOps_eq names
  | addOpWith ins allocs name =>
    have hx := addOpWith_eq hg ins allocs name
    simp only [perform, edit, bind, EStateM.bind, hx]
    cases g.addOpWith ins allocs name <;> rfl
  | addAlloc w => rfl
  | need a r => exact hunit (need_eq a r)
  | needAll as r => exact hunit (needAll_eq as r)
  | constrain u v => exact hunit (constrain_eq hg u v)
  | constrainAll pairs => exact hunit (constrainAll_eq hg pairs)
  | unconstrain u v => exact hunit (unconstrain_eq u v)
  | link u v => exact hunit (link_eq hg u v)
  | separateBins bins stem => exact separateBins_eq hg bins stem
  | attract pairs w => exact attract_eq pairs w
  | attractToStart as priorities tier step => exact attractToStart_eq hg as priorities tier step
  | releaseAll r => exact hunit (releaseAll_eq r)
  | release a r => exact hunit (release_eq a r)
  | reweigh r w => exact hunit (reweigh_eq r w)

end Liveness.Call

import Liveness.Closure.Query
import Liveness.Proofs.Frontier
import Liveness.Proofs.Success

/-! # What the closure finds

Whatever transitive relation the edges belong to, every pair that the closure puts in
order belongs to it, also after edges were added. So the closure only finds paths.
-/

namespace Liveness

open Success

variable {edges : Edges} {a b c x : Nat} {R : Nat → Nat → Prop}

namespace Edges

theorem mem_pairs : (a, b) ∈ edges.pairs ↔ b ∈ edges.outs a := by
  simp only [pairs, List.mem_flatMap, List.mem_map, Prod.mk.injEq, Prod.exists, outs,
    Array.getD_eq_getD_getElem?, List.mem_zipIdx_iff_getElem?, Array.getElem?_toList]
  constructor
  · rintro ⟨bs, i, hi, x, hx, rfl, rfl⟩
    rw [hi]
    exact hx
  · intro h
    cases ha : edges[a]? with
    | none =>
      rw [ha] at h
      cases h
    | some bs =>
      rw [ha] at h
      exact ⟨bs, a, ha, b, h, rfl, rfl⟩

theorem mem_foldl_modify {rev : Edges} {ps : List (Nat × Nat)}
    (h : x ∈ (ps.foldl (fun (rev : Edges) p => rev.modify p.2 (· ++ [p.1])) rev).outs a) :
    x ∈ rev.outs a ∨ (x, a) ∈ ps := by
  induction ps generalizing rev with
  | nil => exact .inl h
  | cons p ps ih =>
    rcases ih h with h | h
    · simp only [outs, Array.getD_eq_getD_getElem?, Array.getElem?_modify] at h ⊢
      split at h
      · next he =>
        subst he
        cases hr : rev[p.2]? with
        | none => simp [hr] at h
        | some bs =>
          simp only [hr, Option.map_some, Option.getD_some, List.mem_append,
            List.mem_singleton] at h ⊢
          rcases h with h | rfl
          · exact .inl h
          · exact .inr List.mem_cons_self
      · exact .inl h
    · exact .inr (List.mem_cons_of_mem p h)

theorem mem_of_mem_reverse (h : x ∈ edges.reverse.outs a) : a ∈ edges.outs x := by
  rcases mem_foldl_modify h with h | h
  · simp only [outs, Array.getD_eq_getD_getElem?, Array.getElem?_replicate] at h
    split at h <;> cases h
  · exact mem_pairs.mp h

end Edges

namespace Rows

variable {n : Nat} {rows : Rows n} {preds : Edges}

def Within (R : Nat → Nat → Prop) (rows : Rows n) : Prop := ∀ ⦃a b⦄, rows.holds a b → R b a

theorem row_join (c : Nat) : (rows.join a b).row c =
    if c = a ∧ a < n then ((rows.row a).insert b).union (rows.row b) else rows.row c := by
  rw [join, row]
  generalize ((rows.row a).insert b).union (rows.row b) = joined
  rw [Vector.getElem?_setIfInBounds, row]
  grind

theorem holds_join : (rows.join a b).holds c x = true →
    rows.holds c x = true ∨ c = a ∧ (x = b ∨ rows.holds b x = true) := by
  unfold holds
  rw [row_join]
  split
  · next hc =>
    obtain ⟨rfl, -⟩ := hc
    rw [Words.testBit_union, Bool.or_eq_true, Words.testBit_insert]
    rintro ((h | ⟨rfl, -⟩) | h)
    · exact .inl h
    · exact .inr ⟨rfl, .inl rfl⟩
    · exact .inr ⟨rfl, .inr h⟩
  · exact .inl

@[simp]
theorem holds_empty : holds (Vector.replicate n (Words.empty n)) a b = false := by
  unfold holds row
  rw [Vector.getElem?_replicate]
  split <;> exact Words.testBit_empty

variable (hR : ∀ ⦃a b c⦄, R a b → R b c → R a c)

include hR

theorem Within.join (h : Within R rows) (hb : R b a) : Within R (rows.join a b) := by
  intro c x hx
  rcases holds_join hx with hx | ⟨rfl, rfl | hx⟩
  · exact h hx
  · exact hb
  · exact hR (h hx) hb

omit hR in
theorem mem_of_mem_essential {kept ps : List Nat} (h : x ∈ rows.essential kept ps) :
    x ∈ kept ∨ x ∈ ps := by
  induction ps generalizing kept with
  | nil => exact .inl h
  | cons p ps ih =>
    unfold essential at h
    split at h
    · rcases ih h with h | h
      · exact .inl h
      · exact .inr (List.mem_cons_of_mem p h)
    · rcases ih h with h | h
      · rcases List.mem_append.mp h with h | h
        · exact .inl h
        · exact .inr (List.mem_cons.mpr (.inl (List.mem_singleton.mp h)))
      · exact .inr (List.mem_cons_of_mem p h)

theorem Within.complete (h : Within R rows) (hp : ∀ ⦃a b⦄, b ∈ preds.outs a → R b a) (a : Nat) :
    Within R (rows.complete preds a) := by
  unfold Rows.complete
  refine List.foldlRecOn (motive := Within R) _ _ h fun rows h p hm => ?_
  exact h.join hR (hp ((mem_of_mem_essential hm).resolve_left List.not_mem_nil))

theorem ofEdges_within (hp : ∀ ⦃a b⦄, b ∈ preds.outs a → R b a)
    (h : Rows.ofEdges n edges preds = .ok rows) : Within R rows := by
  unfold Rows.ofEdges at h
  dsimp only at h
  split at h
  · cases h
  · obtain rfl := Except.ok.inj h
    refine List.foldlRecOn (motive := Within R) _ _ ?_ fun rows h a _ => h.complete hR hp a
    intro a b hb
    rw [holds_empty] at hb
    cases hb

theorem Within.insert (h : Within R rows) (hb : R b a) : Within R (rows.insert b a) := by
  unfold Rows.insert
  split
  · exact h
  · refine List.foldlRecOn (motive := Within R) _ _ (h.join hR hb) fun rows h c _ => ?_
    split
    · next hc =>
      rw [Bool.and_eq_true] at hc
      exact h.join hR (hR hb (h hc.1))
    · exact h

end Rows

namespace Closure

variable {cl cl' : Closure}

theorem foldlM_ofExcept {α σ : Type} (f : σ → α → Except Error σ) (xs : List α) (s : σ) :
    (xs.foldlM (fun s x => MonadExcept.ofExcept (f s x)) s : InPlace σ) =
      MonadExcept.ofExcept (xs.foldlM f s) := by
  induction xs generalizing s with
  | nil => rfl
  | cons x xs ih =>
    rw [List.foldlM_cons, List.foldlM_cons]
    cases f s x with
    | ok t => exact ih t
    | error e => rfl

/-- An update that fails has only written to its copies. -/
theorem update_apply (edges : Edges) : update edges cl =
    match edges.check cl.size >>= fun _ =>
      edges.pairs.foldlM (fun c p => c.addEdge p.1 p.2) cl with
    | .ok c => .ok () c
    | .error e => .error e cl := by
  have hget : (get : InPlace Closure) cl = .ok cl cl := rfl
  unfold update
  simp only [foldlM_ofExcept, bind, EStateM.bind, Except.bind, hget]
  cases edges.check cl.size with
  | error e => rfl
  | ok _ => cases edges.pairs.foldlM (fun c p => c.addEdge p.1 p.2) cl <;> rfl

theorem updated_eq (edges : Edges) : cl.updated edges =
    edges.check cl.size >>= fun _ => edges.pairs.foldlM (fun c p => c.addEdge p.1 p.2) cl := by
  rw [updated, update_apply]
  cases edges.check cl.size >>= fun _ => edges.pairs.foldlM (fun c p => c.addEdge p.1 p.2) cl <;> rfl

def Within (R : Nat → Nat → Prop) (cl : Closure) : Prop := ∀ ⦃a b⦄, cl.precedes a b = true → R a b

variable (hR : ∀ ⦃a b c⦄, R a b → R b c → R a c)

include hR

theorem ofEdges_within (hp : ∀ ⦃a b⦄, b ∈ edges.outs a → R a b)
    (h : Closure.ofEdges edges = .ok cl) : cl.Within R := by
  unfold Closure.ofEdges at h
  rw [seq_eq_ok] at h
  obtain ⟨-, h⟩ := h
  obtain ⟨before, hb, h⟩ := bind_eq_ok.mp h
  obtain ⟨after, -, h⟩ := bind_eq_ok.mp h
  obtain rfl := pure_eq_ok.mp h
  have hw := Rows.ofEdges_within hR (fun _ _ hm => hp (Edges.mem_of_mem_reverse hm)) hb
  exact fun a b hab => hw hab

theorem Within.addEdge (h : cl.Within R) (hab : R a b) (ha : cl.addEdge a b = .ok cl') :
    cl'.Within R := by
  unfold Closure.addEdge at ha
  split at ha
  · cases ha
  · obtain rfl := Except.ok.inj ha
    have hw : Rows.Within R cl.before := fun x y hy => h hy
    exact fun x y hy => hw.insert hR hab hy

theorem Within.updated (h : cl.Within R) (hp : ∀ ⦃a b⦄, b ∈ edges.outs a → R a b)
    (hu : cl.updated edges = .ok cl') : cl'.Within R := by
  rw [updated_eq, seq_eq_ok] at hu
  refine foldlM_keeps (P := Within R) h (fun p hm c c' hc hs => ?_) hu.2
  exact hc.addEdge hR (hp (Edges.mem_pairs.mp hm)) hs

omit hR in
theorem mem_impliedPairs_reverse : (a, b) ∈ cl.impliedPairs edges ↔
    b ∈ edges.outs a ∧ ∃ x ∈ edges.reverse.outs b, cl.precedes a x = true := by
  have hp : (a, b) ∈ cl.impliedPairs edges ↔ b ∈ (cl.implied edges).outs a := Edges.mem_pairs
  rw [hp]
  simp only [implied, Edges.outs, Array.getD_eq_getD_getElem?, Array.getElem?_mapIdx]
  cases edges[a]? <;> simp

omit hR in
theorem mem_impliedPairs (h : (a, b) ∈ cl.impliedPairs edges) :
    b ∈ edges.outs a ∧ ∃ x, b ∈ edges.outs x ∧ cl.precedes a x = true := by
  obtain ⟨hb, x, hx, hpre⟩ := mem_impliedPairs_reverse.mp h
  exact ⟨hb, x, Edges.mem_of_mem_reverse hx, hpre⟩

end Closure

end Liveness

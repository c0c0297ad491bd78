import Liveness.Proofs.Ascending
import Liveness.Proofs.Graph.Lookup

/-! # Well-formed graphs

Addresses are places, lists of addresses are strictly ascending and in range, and every
constraint, need and link is recorded at both of its ends.
-/

namespace Liveness.Graph

variable {W : Type} {g h : Graph W}

/-- Constraints and links are recorded at both ends, which are different Ops in range. -/
structure Ordered (g : Graph W) : Prop where
  op_address : ∀ a < g.opCount, (g.op a).address = a
  ins_sorted : ∀ a, (g.op a).ins.Pairwise (· < ·)
  outs_sorted : ∀ a, (g.op a).outs.Pairwise (· < ·)
  outs_lt : ∀ {a b}, b ∈ (g.op a).outs → b < g.opCount
  mem_ins : ∀ {a b}, a ∈ (g.op b).ins ↔ b ∈ (g.op a).outs
  irrefl : ∀ a, a ∉ (g.op a).outs
  link_lt : ∀ {a b}, (g.op a).fwdLink = some b → b < g.opCount
  bwdLink : ∀ {a b}, (g.op b).bwdLink = some a ↔ (g.op a).fwdLink = some b

structure Supplied [Zero W] (g : Graph W) : Prop where
  alloc_address : ∀ r < g.allocCount, (g.alloc r).address = r
  allocs_sorted : ∀ a, (g.op a).allocs.Pairwise (· < ·)
  ops_sorted : ∀ r, (g.alloc r).ops.Pairwise (· < ·)
  ops_lt : ∀ {a r}, a ∈ (g.alloc r).ops → a < g.opCount
  mem_allocs : ∀ {a r}, r ∈ (g.op a).allocs ↔ a ∈ (g.alloc r).ops

structure WellFormed [Zero W] (g : Graph W) : Prop extends g.Ordered, g.Supplied

theorem Ordered.congr (hg : g.Ordered) (hc : h.opCount = g.opCount)
    (ho : ∀ x, (h.op x).address = (g.op x).address ∧ (h.op x).ins = (g.op x).ins ∧
      (h.op x).outs = (g.op x).outs ∧ (h.op x).fwdLink = (g.op x).fwdLink ∧
      (h.op x).bwdLink = (g.op x).bwdLink) : h.Ordered := by
  constructor <;> simp only [ho, hc]
  · exact hg.op_address
  · exact hg.ins_sorted
  · exact hg.outs_sorted
  · exact hg.outs_lt
  · exact hg.mem_ins
  · exact hg.irrefl
  · exact hg.link_lt
  · exact hg.bwdLink

theorem Supplied.congr [Zero W] (hg : g.Supplied) (hc : h.opCount = g.opCount)
    (hr : h.allocCount = g.allocCount) (ho : ∀ x, (h.op x).allocs = (g.op x).allocs)
    (ha : ∀ r, (h.alloc r).address = (g.alloc r).address ∧ (h.alloc r).ops = (g.alloc r).ops) :
    h.Supplied := by
  constructor <;> simp only [ha, hc, hr, ho]
  · exact hg.alloc_address
  · exact hg.allocs_sorted
  · exact hg.ops_sorted
  · exact hg.ops_lt
  · exact hg.mem_allocs

namespace WellFormed

variable [Zero W] {a b r : Nat}

theorem lt_of_mem_ins (hg : g.WellFormed) (h : a ∈ (g.op b).ins) : a < g.opCount :=
  lt_of_mem_outs (hg.mem_ins.mp h)

theorem lt_of_mem_allocs (hg : g.WellFormed) (h : r ∈ (g.op a).allocs) : r < g.allocCount :=
  lt_of_mem_ops (hg.mem_allocs.mp h)

theorem nodup_allocs (hg : g.WellFormed) (a : Nat) : (g.op a).allocs.Nodup :=
  Ascending.nodup_of_pairwise (hg.allocs_sorted a)

end WellFormed

end Liveness.Graph

import Liveness.Graph.Basic

/-! # Chains of Ops

Two Ops are a tight pair when the second is the only one after the first and the first
the only one before the second. Tight pairs and links each give every Op at most one
successor, and so divide the Ops into chains.
-/

namespace Liveness

/-- Walk from `a` along `next` for at most the given number of steps. -/
def walk (next : Nat → Option Nat) : Nat → Nat → List Nat
  | 0, a => [a]
  | steps + 1, a =>
    match next a with
    | none => [a]
    | some b => a :: walk next steps b

namespace Graph

variable {W : Type}

/-- The Op that forms a tight pair with `a` in front. -/
def tightNext (g : Graph W) (a : Nat) : Option Nat :=
  match (g.op a).outs with
  | [b] => if (g.op b).ins.length = 1 then some b else none
  | _ => none

/-- The tight pairs, by their first Op. -/
def tightPairs (g : Graph W) : List (Nat × Nat) :=
  (List.range g.opCount).filterMap fun a => (g.tightNext a).map fun b => (a, b)

/-- The tight chain that starts at `a`, walked for as many steps as there are Ops. -/
def tightChainFrom (g : Graph W) (a : Nat) : List Nat := walk g.tightNext g.opCount a

/-- The tight chain that starts at `a`, unless `a` is on a closed ring of tight pairs:
there the walk has no end, and so comes to more Ops than there are. -/
def tightChainFrom? (g : Graph W) (a : Nat) : Option (List Nat) :=
  let chain := g.tightChainFrom a
  if chain.length ≤ g.opCount then some chain else none

/-- The longest tight chains of two or more Ops, by their first Op. Closed rings of
tight pairs have no first Op and are left out. -/
def tightChains (g : Graph W) : List (List Nat) :=
  let followers := (List.range g.opCount).filterMap g.tightNext
  let heads := (List.range g.opCount).filter fun a =>
    (g.tightNext a).isSome && !followers.contains a
  heads.map g.tightChainFrom

/-- The Ops that are linked to the Op after them. -/
def linkedForward (g : Graph W) : List Nat :=
  (List.range g.opCount).filter fun a => (g.op a).hasFwdLink

/-- The chain of links that starts at `a`. -/
def linkChainFrom (g : Graph W) (a : Nat) : List Nat :=
  walk (fun a => (g.op a).fwdLink) g.opCount a

/-- The chains of linked Ops, by their first Op. Closed rings of links are left out. -/
def linkChains (g : Graph W) : List (List Nat) :=
  (g.linkedForward.filter fun a => !(g.op a).hasBwdLink).map g.linkChainFrom

end Graph

end Liveness

import Liveness.Proofs.Graph.Schedulable
import Liveness.Proofs.Refinement.Rounds
import Liveness.Proofs.Schedule.Checked
import Liveness.Random.Draw
import Liveness.Schedule.OfGraph

/-! # Schedules of graphs are valid

The first order is checked before it is improved, and improving keeps it valid. Since
refinement only adds to what a schedule has to keep, the schedule is valid for the
original graph. Nothing of this depends on the weights.
-/

namespace Liveness

open Success

variable {W R : Type} [Weight W] [Priority R] {g : Graph W} {settings : SettingsOver R}
  {source : Random.Source} {timeUp : Nat → Bool}

theorem Kahn.schedule_spec {P σ : Type} [Priority P] {pick : σ → Nat → Nat × σ} {rule : TieBreak}
    {listed : List (Nat × P)} {s : σ} {order : List Nat}
    (h : Kahn.schedule g pick rule listed s = .ok order) :
    order.length = g.opCount ∧ ∀ a ∈ order, a < g.opCount := by
  unfold Kahn.schedule at h
  rw [seq_eq_ok] at h
  obtain ⟨c, hc, h⟩ := bind_eq_ok.mp h.2
  dsimp only at h
  rw [throwIf_bind_eq_ok, not_not, pure_eq_ok] at h
  obtain ⟨hn, rfl⟩ := h
  exact ⟨hn, fun a ha => Graph.lt_of_mem_expand hc ha⟩

def SettingsOver.firstReady : SettingsOver Nat where
  tieBreak := .fifo
  priorities := []
  search := .ripple
  budget := ⟨60, 100⟩
  seed := 1011
  checked := true
  onlySusceptible := true
  passes := Passes.allOn
  verbosity := 0

namespace Graph

/-- Scheduling refines the graph, puts it in a first order, checks it and improves it. -/
theorem schedule_eq_ok {s : Schedule W} {log : Log W}
    (h : g.schedule source settings timeUp = .ok (s, log)) :
    ∃ refined refining order improving, g.refine settings.passes = .ok (refined, refining) ∧
      refined.firstOrder source settings = .ok order ∧
      (Schedule.ofOrder refined order).check = .ok () ∧
      (Schedule.ofOrder refined order).improve
        (Plan.ofSettings source settings refined.opCount timeUp) = .ok (s, improving) := by
  obtain ⟨⟨refined, refining⟩, hr, h⟩ := bind_eq_ok.mp h
  obtain ⟨order, ho, h⟩ := bind_eq_ok.mp h
  dsimp only at h
  rw [seq_eq_ok] at h
  obtain ⟨hc, h⟩ := h
  split at h
  · exact (throw_eq_ok.mp h).elim
  · next s' improving hi =>
    obtain ⟨rfl, -⟩ := Prod.mk.inj (pure_eq_ok.mp h)
    exact ⟨refined, refining, order, improving, hr, ho, hc, hi⟩

theorem firstOrder_intact {refined : Graph W} {order : List Nat} (hg : refined.WellFormed)
    (ho : refined.firstOrder source settings = .ok order)
    (hc : (Schedule.ofOrder refined order).check = .ok ()) :
    (Schedule.ofOrder refined order).Intact refined 1 := by
  obtain ⟨hl, hr⟩ := Kahn.schedule_spec ho
  exact Schedule.ofOrder_intact hl hr hg hc

theorem schedule_intact {s : Schedule W} {log : Log W} (hg : g.WellFormed) (hl : g.LinksHeld)
    (h : g.schedule source settings timeUp = .ok (s, log)) :
    ∃ n refined, g.Tightens refined ∧ s.Intact refined n := by
  obtain ⟨refined, refining, order, improving, hr, ho, hc, hi⟩ := schedule_eq_ok h
  have ht := refine_tightens hg hl hr
  obtain ⟨n, hs⟩ := Schedule.improve_intact (firstOrder_intact ht.wellFormed ho hc) hi
  exact ⟨n, refined, ht, hs⟩

/-- Whatever the weights and the settings are and whatever is drawn, a schedule of a graph whose
links all have their constraints keeps every constraint and every link of that graph. -/
theorem schedule_validOrder {s : Schedule W} {log : Log W} (hg : g.Built) (hl : g.LinksHeld)
    (h : g.schedule source settings timeUp = .ok (s, log)) : g.ValidOrder s.ops.toList := by
  obtain ⟨n, refined, ht, hs⟩ := schedule_intact hg.wellFormed hl h
  exact ht.toRefines.validOrder hs.validOrder

section LinkedChains

open Numbers

/-- With all passes and checks on, the two chains keep their link. -/
theorem linkedChains_schedule_validOrder : ∃ s log,
    linkedChains.schedule Random.chaCha SettingsOver.firstReady (fun _ => false) = .ok (s, log) ∧
      linkedChains.ValidOrder s.ops.toList := by
  have hok : (linkedChains.schedule Random.chaCha SettingsOver.firstReady
      fun _ => false).isOk = true := by decide +kernel
  generalize hs : linkedChains.schedule Random.chaCha SettingsOver.firstReady
    (fun _ => false) = result at hok
  cases result with
  | error e => cases hok
  | ok p =>
    exact ⟨p.1, p.2, rfl, schedule_validOrder linkedChains_built linkedChains_linksHeld hs⟩

end LinkedChains

end Graph

end Liveness

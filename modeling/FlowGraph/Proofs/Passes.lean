import FlowGraph.Proofs.Bypass
import FlowGraph.Proofs.Pipeline
import FlowGraph.Proofs.Unreachable

/-!
The registered passes in a pipeline. On a well-formed graph each call of them
leads branches past some blocks and takes these out, or takes out what no path
from the entry comes to. What both edits keep, every run keeps.
-/

namespace FlowGraph

namespace Graph

/-- Exactly the listed blocks that no path from the entry comes to. -/
def Dead (g : Graph) (dead : List BlockId) : Prop :=
  ∀ b, b ∈ dead ↔ b ∈ g.order ∧ ¬ g.Reaches b

theorem Dead.wellFormed {g : Graph} (h : g.WellFormed) {dead : List BlockId}
    (hdead : g.Dead dead) : (g.without dead).WellFormed := by
  apply h.without
  · intro e he hin
    exact ((hdead e).mp hin).2 (h.reaches_entry he)
  · intro id hid hout t ht hin
    have hreach : g.Reaches id := by
      by_contra hno
      exact hout ((hdead id).mpr ⟨hid, hno⟩)
    exact ((hdead t).mp hin).2 (.edge hreach ht)

theorem Bypassing.bypassed_nil {g : Graph} {f : BlockId → BlockId} (h : g.Bypassing [] f) :
    g.bypassed [] f = g := by
  have hf : f = fun b => b := funext fun b => h.keeps b List.not_mem_nil
  subst hf
  unfold bypassed moved
  rw [without_nil, retarget_self]
  cases g with
  | mk => simp

/-- A registered pass refuses a graph with a malformed block, and leaves it as it is. -/
theorem run_of_malformed {g : Graph} {q : Pass Graph} (hq : q ∈ registeredPasses) {v : Violation}
    (hbad : g.malformedBlock? = some v) :
    q.run g = { state := g, error := some (.malformed v) } := by
  have hcases : q = emptyBlockElimination ∨ q = unreachableBlockElimination := by
    simpa [registeredPasses] using hq
  rcases hcases with rfl | rfl
  · simp [emptyBlockElimination, eliminateEmpty, hbad]
  · simp [unreachableBlockElimination, eliminateUnreachable, hbad]

end Graph

namespace Pipeline

variable {p : Pipeline Graph} {P : Graph → Prop}

/-- A pipeline of registered passes keeps what both of their edits keep. -/
theorem keeps_registered (hp : ∀ q ∈ p.passes, q ∈ registeredPasses)
    (hwf : ∀ g, P g → g.WellFormed)
    (hbypass : ∀ g gone f, P g → g.Looked gone f → P (g.bypassed gone f))
    (hdead : ∀ g dead, P g → g.Dead dead → P (g.without dead)) : p.Keeps P := by
  have hcases : ∀ q ∈ p.passes, q = emptyBlockElimination ∨ q = unreachableBlockElimination := by
    intro q hq
    simpa [registeredPasses] using hp q hq
  constructor
  case sound =>
    intro g hg
    unfold faultAt
    split
    · exact Graph.fault?_eq_none.mpr (hwf g hg)
    · rfl
  case runs =>
    intro q hq g hg
    rcases hcases q hq with rfl | rfl
    · obtain ⟨_, _, _, _, _, herr⟩ := (hwf g hg).eliminateEmpty
      exact herr
    · obtain ⟨_, _, _, _, _, herr⟩ := (hwf g hg).eliminateUnreachable
      exact herr
  case pass =>
    intro q hq g hg
    rcases hcases q hq with rfl | rfl
    · obtain ⟨gone, f, hlooked, hstate, -, -⟩ := (hwf g hg).eliminateEmpty
      exact hstate ▸ hbypass g gone f hg hlooked
    · obtain ⟨dead, -, hmem, hstate, -, -⟩ := (hwf g hg).eliminateUnreachable
      exact hstate ▸ hdead g dead hg hmem
  case still =>
    intro q hq g hg hc
    rcases hcases q hq with rfl | rfl
    · obtain ⟨gone, f, hlooked, hstate, hchanged, -⟩ := (hwf g hg).eliminateEmpty
      have hnil : gone = [] := by simpa using hchanged.symm.trans hc
      subst hnil
      exact hstate.trans hlooked.bypassing.bypassed_nil
    · obtain ⟨dead, -, -, hstate, hchanged, -⟩ := (hwf g hg).eliminateUnreachable
      have hnil : dead = [] := by simpa using hchanged.symm.trans hc
      subst hnil
      exact hstate.trans (Graph.without_nil g)

theorem keeps_wellFormed (hp : ∀ q ∈ p.passes, q ∈ registeredPasses) :
    p.Keeps Graph.WellFormed := by
  apply keeps_registered hp
  · exact fun _ h => h
  · exact fun _ _ _ h hlooked => hlooked.bypassing.wellFormed h
  · exact fun _ _ h hdead => hdead.wellFormed h

end Pipeline

end FlowGraph

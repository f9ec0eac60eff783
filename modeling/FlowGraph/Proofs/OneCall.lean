import Mathlib.Logic.Relation
import FlowGraph.Proofs.NormalForm

/-!
What one call of either pass leaves of a well-formed graph, exactly. The
elimination of empty blocks takes out blocks that pass a run on, no whole cycle
of them, and leads each branch past those. The elimination of unreachable
blocks takes out what no path comes to. All else is as it was.
-/

namespace FlowGraph

namespace Graph

/-! ## What is left of a graph -/

/-- The blocks of a graph that another one does not have. -/
def takenOut (g n : Graph) : Set BlockId := {b | b ∈ g.order ∧ b ∉ n.order}

theorem takenOut_without {g : Graph} {ids : List BlockId} (h : ∀ b ∈ ids, b ∈ g.order) :
    g.takenOut (g.without ids) = {b | b ∈ ids} := by
  ext b
  simp only [takenOut, mem_without_order, Set.mem_ofPred_eq, not_and, not_not]
  constructor
  · rintro ⟨hb, hid⟩
    exact hid hb
  · exact fun hid => ⟨h b hid, fun _ => hid⟩

/-! ## Leading past blocks -/

/-- No cycle of blocks that pass a run on to each other is among the blocks. -/
def NoCycle (g : Graph) (gone : Set BlockId) : Prop :=
  ∀ b, ¬ Relation.TransGen (fun a t => a ∈ gone ∧ t ∈ gone ∧ g.passTarget? a = some t) b b

/-- The map follows blocks that are gone to where they pass a run, as far as a block
that is still there. -/
structure Chases (g : Graph) (gone : Set BlockId) (chase : BlockId → BlockId) : Prop where
  stays : ∀ t, t ∉ gone → chase t = t
  passes : ∀ t ∈ gone, ∀ u, g.passTarget? t = some u → chase t = chase u

section Bypassing

variable {g : Graph} {gone : List BlockId} {f : BlockId → BlockId}

theorem Bypassing.passThrough (h : g.Bypassing gone f) (hwf : g.WellFormed) {b : BlockId}
    (hb : b ∈ gone) : g.PassThrough b := by
  obtain ⟨t, ht, -⟩ := h.gone_eq hb
  rw [hwf.passThrough_iff (h.listed b hb), ht]
  simp

/-- A block from which a walk leaves the blocks is on no cycle of them. -/
theorem Follows.not_cycle {p : Set BlockId} {b c : BlockId} (h : g.Follows (· ∈ p) b c)
    (hc : c ∉ p) :
    ¬ Relation.TransGen (fun a t => a ∈ p ∧ t ∈ p ∧ g.passTarget? a = some t) b b := by
  induction h with
  | refl b =>
    intro hcycle
    obtain ⟨t, ⟨hb, -, -⟩, -⟩ := Relation.TransGen.head'_iff.mp hcycle
    exact hc hb
  | hop _ ht _ ih =>
    -- the next block of the walk is the next one of the cycle, so it is on the cycle, too
    intro hcycle
    obtain ⟨t, hstep, hrest⟩ := Relation.TransGen.head'_iff.mp hcycle
    have htt := hstep.2.2
    rw [ht] at htt
    cases htt
    exact ih hc (Relation.TransGen.tail' hrest hstep)

theorem Bypassing.noCycle (h : g.Bypassing gone f) : g.NoCycle {b | b ∈ gone} :=
  fun b => (h.follows b).not_cycle (p := {b | b ∈ gone}) (h.lands b)

theorem Bypassing.chases (h : g.Bypassing gone f) : g.Chases {b | b ∈ gone} f where
  stays := h.keeps
  passes t ht u hu := by
    obtain ⟨u', hu', hf⟩ := h.gone_eq ht
    rw [hu] at hu'
    cases hu'
    exact hf

/-- A map that follows the blocks that are gone is constant on a walk over them. -/
theorem Chases.follows {p : Set BlockId} {chase : BlockId → BlockId} (h : g.Chases p chase)
    {b c : BlockId} (hf : g.Follows (· ∈ p) b c) : chase b = chase c := by
  induction hf with
  | refl => rfl
  | hop hb ht _ ih => rw [h.passes _ hb _ ht, ih]

theorem Bypassing.chases_unique (h : g.Bypassing gone f) {chase : BlockId → BlockId}
    (hc : g.Chases {b | b ∈ gone} chase) : chase = f := by
  funext b
  rw [hc.follows (h.follows b), hc.stays _ (h.lands b)]

theorem Bypassing.takenOut (h : g.Bypassing gone f) :
    g.takenOut (g.bypassed gone f) = {b | b ∈ gone} :=
  takenOut_without (g := g.moved f) h.listed

/-- An entry that does something, or passes a run to itself, is not bypassed. -/
theorem Bypassing.entry_stays (h : g.Bypassing gone f) (hwf : g.WellFormed) {e : BlockId}
    (he : ¬ g.PassThrough e ∨ g.passTarget? e = some e) : e ∉ gone := by
  intro hg
  rcases he with hno | hself
  · exact hno (h.passThrough hwf hg)
  · exact h.noCycle e (.single ⟨hg, hg, hself⟩)

/-- When the look went over all blocks, one that is left and still passes a run on
passes it to itself. -/
theorem Settled.passTarget?_bypassed (hs : g.Settled gone g.order) (h : g.Bypassing gone f)
    (hwf : g.WellFormed) {b : BlockId} (hb : b ∈ (g.bypassed gone f).order)
    (hp : (g.bypassed gone f).PassThrough b) : (g.bypassed gone f).passTarget? b = some b := by
  rw [(h.wellFormed hwf).passThrough_iff hb] at hp
  obtain ⟨hbo, hbg⟩ := mem_bypassed_order.mp hb
  rw [hwf.passTarget?_bypassed hbo hbg] at hp ⊢
  cases ht : g.passTarget? b with
  | none =>
    rw [ht] at hp
    exact absurd rfl hp
  | some t => rw [Option.map_some, hs.closes h hwf hbo hbg ht]

end Bypassing

/-- One call of the elimination of empty blocks takes out blocks that pass a run on, and
among them no whole cycle. So there is one map that follows them to where they lead.
Each branch and the entry go where the map takes them, and nothing else is changed.
If the entry does something or is a loop of its own, no block that passes a run on to
another block is left. -/
theorem one_call_leads_past_the_blocks_that_it_takes_out (g : Graph) (hg : g.fault? = none) :
    let r := g.eliminateEmpty
    let gone := g.takenOut r.state
    r.error = none ∧
    (∀ b ∈ gone, g.PassThrough b) ∧
    g.NoCycle gone ∧
    (∃ chase, g.Chases gone chase ∧ (∀ chase', g.Chases gone chase' → chase' = chase) ∧
      (g.moved chase).CutTo (· ∉ gone) r.state) ∧
    ((∀ e, g.entry = some e → ¬ g.PassThrough e ∨ g.passTarget? e = some e) →
      ∀ b ∈ r.state.order, r.state.PassThrough b → r.state.passTarget? b = some b) := by
  have hwf := fault?_eq_none.mp hg
  obtain ⟨gone, f, hl, hstate, -, herr⟩ := hwf.eliminateEmpty
  have h := hl.bypassing
  simp only [hstate, h.takenOut]
  refine ⟨herr, fun b hb => h.passThrough hwf hb, h.noCycle, ?_, ?_⟩
  · exact ⟨f, h.chases, fun _ hc => h.chases_unique hc, cutTo_without (g := g.moved f) h.listed⟩
  · intro hentry b hb hp
    have hs := hl.settled fun e he => h.entry_stays hwf (hentry e he)
    exact hs.passTarget?_bypassed h hwf hb hp

/-- Two blocks on the way out, listed against the way, a cycle of two, and two blocks that
no path comes to, one of which does something. -/
def maze : Graph where
  name := "maze"
  slots :=
    [some { id := 0, name := "in",
            code :=
              [{ op := .const, imm := 1, id := 0, block := 0 },
               { op := .brif, args := [.value 0, .block 2, .block 4], id := 1, block := 0 }] },
     some { id := 1, name := "second",
            code := [{ op := .br, args := [.block 5], id := 2, block := 1 }] },
     some { id := 2, name := "first",
            code := [{ op := .br, args := [.block 1], id := 3, block := 2 }] },
     some { id := 3, name := "round",
            code := [{ op := .br, args := [.block 4], id := 4, block := 3 }] },
     some { id := 4, name := "about",
            code := [{ op := .br, args := [.block 3], id := 5, block := 4 }] },
     some { id := 5, name := "out", code := [{ op := .ret, id := 6, block := 5 }] },
     some { id := 6, name := "lost",
            code := [{ op := .br, args := [.block 7], id := 7, block := 6 }] },
     some { id := 7, name := "more",
            code :=
              [{ op := .const, imm := 2, id := 8, block := 7 },
               { op := .brif, args := [.value 8, .block 6, .block 1], id := 9, block := 7 }] }]
  order := [0, 1, 2, 3, 4, 5, 6, 7]
  entry := some 0
  nextValue := 10

theorem one_call_leads_past_four_blocks_of_maze :
    maze.fault? = none ∧
    maze.eliminateEmpty.state.order = [0, 4, 5, 7] ∧
    maze.eliminateEmpty.state.successors 0 = [5, 4] ∧
    ∃ chase, maze.Chases (maze.takenOut maze.eliminateEmpty.state) chase ∧
      (maze.moved chase).CutTo (· ∉ maze.takenOut maze.eliminateEmpty.state)
        maze.eliminateEmpty.state ∧
      maze.eliminateEmpty.state.passTarget? 4 = some 4 := by
  have hg : maze.fault? = none := by decide
  obtain ⟨-, -, -, ⟨chase, hc, -, hcut⟩, hloops⟩ :=
    one_call_leads_past_the_blocks_that_it_takes_out maze hg
  refine ⟨hg, by decide, by decide, chase, hc, hcut, ?_⟩
  have hentry : ¬ maze.PassThrough 0 := by
    rintro ⟨block, i, hb, hi, -⟩
    cases hb
    cases hi
  refine hloops (fun e he => ?_) 4 (by decide) ?_
  · cases he
    exact .inl hentry
  · exact ⟨_, _, rfl, rfl, rfl⟩

/-! ## Taking out what no path comes to -/

/-- One call of the elimination of unreachable blocks leaves just the blocks that a path
from the entry comes to, in their order and as they were. It tells a change exactly when
there was another block, and a second call does nothing. -/
theorem one_call_takes_out_what_no_path_comes_to (g : Graph) (hg : g.fault? = none) :
    let r := g.eliminateUnreachable
    r.error = none ∧
    g.CutTo g.Reaches r.state ∧
    (r.changed = true ↔ ∃ b ∈ g.order, ¬ g.Reaches b) ∧
    r.state.eliminateUnreachable = { state := r.state } := by
  have hwf := fault?_eq_none.mp hg
  obtain ⟨dead, -, hdead, hstate, hchanged, herr⟩ := hwf.eliminateUnreachable
  have hd : g.Dead dead := hdead
  have hcut := cutTo_without fun b hb => ((hdead b).mp hb).1
  simp only [hstate, hchanged]
  refine ⟨herr, { hcut with live := ?_ }, ?_, ?_⟩
  · intro b
    rw [hd.mem_order hwf]
    exact ⟨fun hr => ⟨hwf.mem_of_reaches hr, hr⟩, fun hb => hb.2⟩
  · simp only [← hdead, Bool.not_eq_true', List.isEmpty_eq_false_iff_exists_mem]
  · refine (hd.wellFormed hwf).eliminateUnreachable_of_reached ?_
    intro b hb
    rw [hd.reaches_iff hwf]
    exact (hd.mem_order hwf).mp hb

theorem one_call_takes_two_blocks_out_of_maze :
    maze.fault? = none ∧ maze.eliminateUnreachable.state.order = [0, 1, 2, 3, 4, 5] ∧
    maze.CutTo maze.Reaches maze.eliminateUnreachable.state ∧
    (∃ b ∈ maze.order, ¬ maze.Reaches b) ∧
    maze.eliminateUnreachable.state.eliminateUnreachable =
      { state := maze.eliminateUnreachable.state } := by
  have hg : maze.fault? = none := by decide
  obtain ⟨-, hcut, hchanged, hagain⟩ := one_call_takes_out_what_no_path_comes_to maze hg
  exact ⟨hg, by decide, hcut, hchanged.mp (by decide), hagain⟩

end Graph

end FlowGraph

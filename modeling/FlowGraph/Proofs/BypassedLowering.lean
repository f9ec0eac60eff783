import FlowGraph.Proofs.OptimizedLowering

/-!
Lowering after empty blocks are taken out. What is left of a function is lowered
in the same order, names the same values, reads the same arguments and makes the
same calls. So a program is lowered exactly when it was lowered before, to
functions that take as much as they took.
-/

namespace FlowGraph

/-! ## One function -/

namespace Graph

open Lower (withoutJumps mem_withoutJumps InScope Regular)

/-- The number of parameters, counted without the jumps. -/
theorem arity_eq_withoutJumps (g : Graph) :
    g.arity = (withoutJumps g.instrs).foldl Instr.count 0 := by
  unfold arity withoutJumps
  rw [List.foldl_filter]
  congr 1
  funext n i
  by_cases hop : i.op = .br <;> simp [hop, Instr.count]

/-- The graph differs from another one only in its jumps and in where branches lead, and that
does not matter to lowering. -/
structure LowersLike (g g' : Graph) : Prop where
  name : g'.name = g.name
  wellFormed : g.WellFormed → g'.WellFormed
  inScope : InScope g' ↔ InScope g
  instrs : ∃ f, withoutJumps g'.instrs = (withoutJumps g.instrs).map (Instr.retarget f)

theorem LowersLike.refl (g : Graph) : g.LowersLike g := by
  refine ⟨rfl, id, .rfl, fun b => b, ?_⟩
  exact (List.map_id'' Instr.retarget_self _).symm

theorem LowersLike.trans {g g' g'' : Graph} (h : g.LowersLike g') (h' : g'.LowersLike g'') :
    g.LowersLike g'' := by
  obtain ⟨f, hf⟩ := h.instrs
  obtain ⟨f', hf'⟩ := h'.instrs
  refine ⟨h'.name.trans h.name, h'.wellFormed ∘ h.wellFormed, h'.inScope.trans h.inScope, ?_⟩
  refine ⟨f' ∘ f, ?_⟩
  rw [hf', hf, List.map_map]
  exact List.map_congr_left fun i _ => Instr.retarget_retarget f f' i

namespace LowersLike

variable {g g' : Graph} (h : g.LowersLike g')

include h

theorem arity : g'.arity = g.arity := by
  obtain ⟨f, hf⟩ := h.instrs
  rw [arity_eq_withoutJumps, arity_eq_withoutJumps, hf, List.foldl_map]
  rfl

theorem declare? : Lower.declare? g' = Lower.declare? g := by
  unfold Lower.declare?
  rw [h.arity, h.name]

/-- What is asked of instructions, but not of jumps or of where branches lead, is asked of the
same ones. -/
theorem forall_instrs {P : Instr → Prop} (hjump : ∀ i, i.op = .br → P i)
    (hmove : ∀ i f, P (Instr.retarget f i) ↔ P i) :
    (∀ i ∈ g'.instrs, P i) ↔ ∀ i ∈ g.instrs, P i := by
  obtain ⟨f, hf⟩ := h.instrs
  have hacts : ∀ is : List Instr, (∀ i ∈ is, P i) ↔ ∀ i ∈ withoutJumps is, P i := by
    intro is
    constructor
    · exact fun hall i hi => hall i (mem_withoutJumps.mp hi).1
    · intro hall i hi
      by_cases hop : i.op = .br
      · exact hjump i hop
      · exact hall i (mem_withoutJumps.mpr ⟨hi, hop⟩)
  rw [hacts g'.instrs, hf, hacts g.instrs, List.forall_mem_map]
  simp only [hmove]

theorem regular (hg : Regular g) : Regular g' := by
  have hwf := h.wellFormed hg.wellFormed
  have hable : ∀ i ∈ g'.instrs,
      Lower.Paired i ∧ (i.op = .cmp → (Cond.ofName? i.cond).isSome = true) := by
    rw [h.forall_instrs]
    · exact fun i hi => ⟨(hg.able i hi).paired, (hg.able i hi).cond⟩
    · intro i hop
      simp [Lower.Paired, hop]
    · intro i f
      simp [Lower.Paired]
  refine ⟨hwf, fun i hi => ⟨?_, (hable i hi).1, (hable i hi).2⟩⟩
  obtain ⟨b, hb, block, hblock, hi⟩ := mem_instrs.mp hi
  exact (hwf.block_of_mem hb hblock).fits i hi

theorem inRange (n : Int) :
    (∀ i ∈ g'.instrs, Lower.InRange n i) ↔ ∀ i ∈ g.instrs, Lower.InRange n i :=
  h.forall_instrs (fun i hop => by simp [Lower.InRange, hop]) fun _ _ => .rfl

theorem passes (takes : String → Nat) :
    (∀ i ∈ g'.instrs, Lower.Passes takes i) ↔ ∀ i ∈ g.instrs, Lower.Passes takes i :=
  h.forall_instrs (fun i hop => by simp [Lower.Passes, hop]) fun i f => by simp [Lower.Passes]

theorem calls (name : String) (n : Nat) :
    (∃ i ∈ g'.instrs, i.op = .call ∧ i.sym = name ∧ i.values.length = n) ↔
      ∃ i ∈ g.instrs, i.op = .call ∧ i.sym = name ∧ i.values.length = n := by
  have hnone := h.forall_instrs (P := fun i => ¬ (i.op = .call ∧ i.sym = name ∧ i.values.length = n))
    (fun i hop => by simp [hop]) fun i f => by simp
  rw [← not_iff_not]
  simpa only [not_exists, not_and] using hnone

end LowersLike

section Bypass

variable {g : Graph} {gone : List BlockId} {f : BlockId → BlockId}

theorem Bypassing.lowersLike (h : g.Bypassing gone f) (hg : g.WellFormed) :
    g.LowersLike (g.bypassed gone f) where
  name := rfl
  wellFormed := h.wellFormed
  inScope := h.inScope_iff hg
  instrs := ⟨f, h.withoutJumps_codeAt hg fun _ hb => hb⟩

theorem WellFormed.lowersLike_eliminateEmpty (hg : g.WellFormed) :
    g.LowersLike g.eliminateEmpty.state := by
  obtain ⟨gone, f, hl, hstate, -⟩ := hg.eliminateEmpty
  rw [hstate]
  exact hl.bypassing.lowersLike hg

/-- The order of lowering of what is left is that of the graph, without what was taken out. -/
theorem Bypassing.lowerOrder? (h : g.Bypassing gone f) (hg : g.WellFormed) {e : BlockId}
    (he : e ∈ g.order) (hge : g.entry = some e) :
    ∃ bs bs' : List Block, Graph.lowerOrder? g e = some (bs.map some) ∧
      Graph.lowerOrder? (g.bypassed gone f) (f e) = some (bs'.map some) ∧
      bs'.map (·.id) = (bs.map (·.id)).filter (· ∈ (g.bypassed gone f).order) := by
  have hg' := h.wellFormed hg
  obtain ⟨l, hl, horder⟩ := hg.lowerOrder?_eq he
  obtain ⟨e', he', hge'⟩ := hg'.entry
  rw [entry_bypassed hge] at hge'
  cases hge'
  obtain ⟨l', hl', horder'⟩ := hg'.lowerOrder?_eq he'
  obtain rfl := (h.visits hg he hl).unique hl'
  refine ⟨_, _, horder, horder', ?_⟩
  rw [hg.map_id_visits he hl, hg'.map_id_visits he' hl', order_bypassed]
  apply List.filter_congr
  intro x hx
  have hlisted : x ∈ g.order := (hg.perm_visits he hl).mem_iff.mp hx
  simp [mem_bypassed_order, hlisted]

end Bypass

end Graph

/-! ## A program -/

namespace Program

variable {p : Program} {F : Graph → Graph} (hreg : ∀ g ∈ p.functions, Lower.Regular g)
  (hnames : (p.functions.map (·.name)).Nodup)
  (hF : ∀ g ∈ p.functions, g.LowersLike (F g))

include hreg hnames hF

theorem regular_of_lowersLike : (∀ g ∈ (p.mapFunctions F).functions, Lower.Regular g) ∧
    ((p.mapFunctions F).functions.map (·.name)).Nodup := by
  constructor
  · exact List.forall_mem_map.mpr fun g hg => (hF g hg).regular (hreg g hg)
  · rw [map_name_mapFunctions fun g hg => (hF g hg).name]
    exact hnames

/-- Functions that are lowered alike are lowered in the same cases. -/
theorem lower_mapFunctions_iff :
    (∃ m, (p.mapFunctions F).lower = .ok m) ↔ ∃ m, p.lower = .ok m := by
  obtain ⟨hreg', hnames'⟩ := regular_of_lowersLike hreg hnames hF
  rw [lower_isOk hreg' hnames', lower_isOk hreg hnames]
  unfold mapFunctions
  simp only [List.forall_mem_map]
  refine and_congr ?_ (and_congr ?_ (exists_congr fun takes => and_congr ?_ ?_))
  · refine forall₂_congr fun g hg => ?_
    rw [(hF g hg).declare?]
  · refine forall₂_congr fun g hg => ?_
    rw [(hF g hg).arity, (hF g hg).inScope, (hF g hg).inRange]
  · refine forall₂_congr fun g hg => ?_
    rw [(hF g hg).arity, (hF g hg).name]
  · refine forall₂_congr fun g hg => ?_
    rw [(hF g hg).passes]

/-- Functions that are lowered alike have the same heads, and so have the callees from
outside. -/
theorem heads_of_lowersLike {m m' : Llvm.Module} (h : p.lower = .ok m)
    (h' : (p.mapFunctions F).lower = .ok m') :
    (∀ (k : Nat) g, p.functions[k]? = some g → ∃ f f', m.functions[k]? = some f ∧
      m'.functions[k]? = some f' ∧ f.name = g.name ∧ f'.name = g.name ∧ f'.params = f.params) ∧
    ∀ name n, (∃ f ∈ m'.functions.drop p.functions.length, f.name = name ∧ f.params = n) ↔
      ∃ f ∈ m.functions.drop p.functions.length, f.name = name ∧ f.params = n := by
  obtain ⟨hreg', hnames'⟩ := regular_of_lowersLike hreg hnames hF
  obtain ⟨hown, houtside⟩ := lower_heads hreg hnames h
  obtain ⟨hown', houtside'⟩ := lower_heads hreg' hnames' h'
  have hlength : (p.mapFunctions F).functions.length = p.functions.length := by
    simp [mapFunctions]
  constructor
  · intro k g hk
    have hlike := hF g (List.mem_of_getElem? hk)
    have hk' : (p.mapFunctions F).functions[k]? = some (F g) := by simp [mapFunctions, hk]
    obtain ⟨f, hf, hname, hparams⟩ := hown k g hk
    obtain ⟨f', hf', hname', hparams'⟩ := hown' k (F g) hk'
    rw [hlike.arity, ← hparams] at hparams'
    exact ⟨f, f', hf, hf', hname, hname'.trans hlike.name, by omega⟩
  · intro name n
    rw [houtside, ← hlength, houtside']
    unfold mapFunctions
    rw [List.forall_mem_map]
    simp only [List.mem_map, exists_exists_and_eq_and]
    refine and_congr (forall₂_congr fun g hg => ?_) (exists_congr fun g => and_congr_right fun hg => ?_)
    · rw [(hF g hg).name]
    · exact (hF g hg).calls name n

end Program

/-- The program with the elimination of empty blocks run on the functions that are picked. -/
def Program.skipEmpty (p : Program) (pick : Graph → Bool) : Program :=
  p.mapFunctions fun g => if pick g then g.eliminateEmpty.state else g

/-- The elimination of empty blocks leaves the order of lowering as it was, without the blocks
that it takes out. So whichever functions of a program it is run on, each function takes as many
parameters as before, and the program is lowered exactly when it was. -/
theorem Program.taking_out_empty_blocks_does_not_disturb_lowering :
    (∀ g : Graph, g.fault? = none → g.eliminateEmpty.error = none ∧
      ∃ (e e' : BlockId) (bs bs' : List Block), g.entry = some e ∧
        g.lowerOrder? e = some (bs.map some) ∧ g.eliminateEmpty.state.entry = some e' ∧
        g.eliminateEmpty.state.lowerOrder? e' = some (bs'.map some) ∧
        bs'.map (·.id) = (bs.map (·.id)).filter (· ∈ g.eliminateEmpty.state.order)) ∧
    ∀ path text p, Text.read path text = .ok p → (∀ g ∈ p.functions, g.fault? = none) →
      ∀ pick : Graph → Bool,
        (p.skipEmpty pick).functions.map Graph.arity = p.functions.map Graph.arity ∧
        ((∃ m, (p.skipEmpty pick).lower = .ok m) ↔ ∃ m, p.lower = .ok m) ∧
        ∀ m m', p.lower = .ok m → (p.skipEmpty pick).lower = .ok m' →
          (∀ (k : Nat) g, p.functions[k]? = some g → ∃ f f', m.functions[k]? = some f ∧
            m'.functions[k]? = some f' ∧ f.name = g.name ∧ f'.name = g.name ∧
            f'.params = f.params) ∧
          ∀ name n, (∃ f ∈ m'.functions.drop p.functions.length, f.name = name ∧ f.params = n) ↔
            ∃ f ∈ m.functions.drop p.functions.length, f.name = name ∧ f.params = n := by
  constructor
  · intro g hg
    have hwf := Graph.fault?_eq_none.mp hg
    obtain ⟨gone, f, hl, hstate, -, herr⟩ := hwf.eliminateEmpty
    obtain ⟨e, he, hge⟩ := hwf.entry
    obtain ⟨bs, bs', hbs, hbs', hids⟩ := hl.bypassing.lowerOrder? hwf he hge
    rw [hstate]
    exact ⟨herr, e, f e, bs, bs', hge, hbs, Graph.entry_bypassed hge, hbs', hids⟩
  · intro path text p hread hcheck pick
    have hwf : ∀ g ∈ p.functions, g.WellFormed := fun g hg => Graph.fault?_eq_none.mp (hcheck g hg)
    obtain ⟨hreg, hnames⟩ := regular_of_read hread hwf
    have hlike : ∀ g ∈ p.functions, g.LowersLike (if pick g then g.eliminateEmpty.state else g) := by
      intro g hg
      split
      · exact (hwf g hg).lowersLike_eliminateEmpty
      · exact .refl g
    refine ⟨?_, lower_mapFunctions_iff hreg hnames hlike, ?_⟩
    · unfold skipEmpty mapFunctions
      rw [List.map_map]
      exact List.map_congr_left fun g hg => (hlike g hg).arity
    · exact fun m m' h h' => heads_of_lowersLike hreg hnames hlike h h'

/-- A function whose entry does nothing but lead to a block that is listed later. -/
def Graph.strolling : Graph := Outline.graph {
  name := "stroll"
  blocks := [
    ("start", [.br 2]),
    ("far", [.br 3]),
    ("go", [.arg 1, .brif 2 1 3]),
    ("near", [.br 4]),
    ("join", [.call "out" [2], .ret [5]])]
  entry := some 0 }

/-- A program with such a function, and one that calls it and has two empty blocks in a row. -/
def Program.strolls : Program where
  path := "strolls"
  functions := [
    Graph.strolling,
    Outline.graph {
      name := "main"
      blocks := [
        ("in", [.const 7, .call "stroll" [0, 0], .brif 1 1 2]),
        ("over", [.br 2]),
        ("on", [.br 3]),
        ("leave", [.ret [1]])]
      entry := some 0 }]

def Program.strollsText : List UInt8 :=
  Text.bytesOf ("func stroll \x7b\nstart:\n br go\nfar:\n br near\ngo:\n a = arg 1\n" ++
    " brif a far near\nnear:\n br join\njoin:\n r = call out a\n ret r\n\x7d\n" ++
    "func main \x7b\nin:\n x = const 7\n y = call stroll x, x\n brif y over on\n" ++
    "over:\n br on\non:\n br leave\nleave:\n ret y\n\x7d")

theorem Program.taking_out_empty_blocks_does_not_disturb_strolls :
    (Graph.strolling.fault? = none ∧ Graph.strolling.eliminateEmpty.state.order = [1, 2, 3, 4] ∧
      ∃ bs bs' : List Block, Graph.strolling.lowerOrder? 0 = some (bs.map some) ∧
        Graph.strolling.eliminateEmpty.state.lowerOrder? 2 = some (bs'.map some) ∧
        bs.map (·.id) = [0, 2, 1, 3, 4] ∧ bs'.map (·.id) = [2, 1, 3, 4]) ∧
    Text.read "strolls" strollsText = .ok strolls ∧ (∀ g ∈ strolls.functions, g.fault? = none) ∧
      (strolls.skipEmpty fun _ => true).functions.map (·.order) = [[1, 2, 3, 4], [0, 3]] ∧
      (strolls.skipEmpty fun _ => true).functions.map Graph.arity = [2, 0] ∧
      ∃ m m' : Llvm.Module, strolls.lower = .ok m ∧
        (strolls.skipEmpty fun _ => true).lower = .ok m' ∧
        (∃ f f', m.functions[0]? = some f ∧ m'.functions[0]? = some f' ∧ f'.params = f.params) ∧
        ∃ f ∈ m'.functions.drop 2, f.name = "out" ∧ f.params = 1 := by
  have hall : ∀ g ∈ strolls.functions, g.fault? = none := by decide +kernel
  have hread : Text.read "strolls" strollsText = .ok strolls := by decide +kernel
  have hg := hall Graph.strolling List.mem_cons_self
  obtain ⟨horders, hprograms⟩ := taking_out_empty_blocks_does_not_disturb_lowering
  obtain ⟨-, e, e', bs, bs', he, hbs, he', hbs', hids⟩ := horders Graph.strolling hg
  obtain ⟨harities, hlower, hheads⟩ :=
    hprograms "strolls" strollsText strolls hread hall fun _ => true
  have hstart : Graph.strolling.entry = some 0 := rfl
  have hleft : Graph.strolling.eliminateEmpty.state.order = [1, 2, 3, 4] := by decide +kernel
  have hentry : Graph.strolling.eliminateEmpty.state.entry = some 2 := by decide +kernel
  have hbefore : (Graph.strolling.lowerOrder? 0).map (List.filterMap (Option.map Block.id)) =
      some [0, 2, 1, 3, 4] := by decide +kernel
  rw [hstart] at he
  cases he
  rw [hentry] at he'
  cases he'
  rw [hbs] at hbefore
  have hfirst : bs.map (·.id) = [0, 2, 1, 3, 4] := by simpa using hbefore
  rw [hfirst, hleft] at hids
  obtain ⟨m, hm, hout⟩ : ∃ m : Llvm.Module, strolls.lower = .ok m ∧
      ∃ f ∈ m.functions.drop 2, f.name = "out" ∧ f.params = 1 :=
    ⟨_, rfl, _, List.mem_cons_self, rfl, rfl⟩
  obtain ⟨m', hm'⟩ := hlower.mpr ⟨m, hm⟩
  obtain ⟨hown, houtside⟩ := hheads m m' hm hm'
  obtain ⟨f, f', hf, hf', -, -, hparams⟩ := hown 0 Graph.strolling rfl
  refine ⟨⟨hg, hleft, bs, bs', hbs, hbs', hfirst, hids⟩, hread, hall, by decide +kernel, ?_, m, m', hm,
    hm', ⟨f, f', hf, hf', hparams⟩, (houtside "out" 1).mpr hout⟩
  rw [harities]
  decide +kernel

end FlowGraph

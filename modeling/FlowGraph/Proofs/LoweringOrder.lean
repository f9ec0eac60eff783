import FlowGraph.Proofs.Dominance
import FlowGraph.Proofs.OneCall

/-!
The order of lowering. It starts with the entry, goes on with the blocks that a
path comes to, and ends with the others. A block comes after all that dominate
it, so a value that is given on every path to its uses is lowered before them.
-/

namespace FlowGraph

namespace Graph

/-! ## What is lowered first -/

variable {g : Graph} {e : BlockId} {l : List BlockId}

/-- A search from a block leaves it last. -/
theorem visits_head (h : Visits g.successors [] [e] l) : ∃ inner, l = e :: inner := by
  cases h with
  | again hseen _ => cases hseen
  | visit _ _ hrest =>
    cases hrest
    exact ⟨_, rfl⟩

/-- Both searches from the entry find the same blocks. -/
theorem WellFormed.perm_reachable (hg : g.WellFormed) (he : g.entry = some e)
    (hl : Visits g.successors [] [e] l) {r : KeySet}
    (hr : ∀ b, r.contains b = true ↔ g.Reaches b) : l.Perm (r.toList.map Int.ofNat) := by
  rw [List.perm_ext_iff_of_nodup hl.fresh.1 r.map_toList_nodup]
  intro b
  rw [hg.mem_visits he hl, KeySet.mem_map_toList, hr]

/-- The order of lowering has each block once, the entry first. It starts with as many blocks as
a path comes to, which are those, and ends with the others in their own order. -/
theorem the_order_of_lowering_starts_with_what_is_reached (g : Graph) (hg : g.fault? = none) :
    ∃ (e : BlockId) (entry : Block) (r : KeySet) (bs : List Block),
      g.entry = some e ∧ g.block? e = some entry ∧ g.reachable? = some r ∧
      g.lowerOrder? e = some (bs.map some) ∧
      bs.Perm g.blocks ∧ (bs.map (·.id)).Nodup ∧ bs.head? = some entry ∧
      ((bs.take r.size).map (·.id)).Perm (r.toList.map Int.ofNat) ∧
      bs.drop r.size = g.blocks.filter (fun b => !r.contains b.id) := by
  have hwf := fault?_eq_none.mp hg
  obtain ⟨e, hmem, he⟩ := hwf.entry
  obtain ⟨entry, hentry, -⟩ := hwf.block e hmem
  obtain ⟨l, hl, horder⟩ := hwf.lowerOrder?_eq hmem
  obtain ⟨r, hr, hreach⟩ := hwf.reachable?
  have hperm := hwf.perm_visits hmem hl
  have hsame := hwf.perm_reachable he hl hreach
  have hids : (l.filterMap g.block?).map (·.id) = l :=
    hwf.map_id_filterMap fun x hx => hwf.mem_of_reaches ((hwf.mem_visits he hl).mp hx)
  have hlength : (l.filterMap g.block?).length = r.size := by
    rw [← List.length_map (·.id), hids, hsame.length_eq, List.length_map, KeySet.size_eq_length]
  have hrest : g.order.filter (· ∉ l) = g.order.filter (fun x => !r.contains x) := by
    apply List.filter_congr
    intro x _
    rw [Bool.eq_iff_iff, Bool.not_eq_true', Bool.eq_false_iff, ne_eq, hreach,
      decide_eq_true_eq, hwf.mem_visits he hl]
  refine ⟨e, entry, r, _, he, hentry, hr, horder, hperm.filterMap g.block?, ?_, ?_, ?_, ?_⟩
  · rw [hwf.map_id_visits hmem hl]
    exact hperm.nodup_iff.mpr hwf.nodup
  · obtain ⟨inner, rfl⟩ := visits_head hl
    rw [List.cons_append, List.filterMap_cons_some hentry]
    rfl
  · rw [List.filterMap_append, List.take_left' hlength, hids]
    exact hsame
  · rw [List.filterMap_append, List.drop_left' hlength, hrest,
      hwf.filter_blocks (fun x => !r.contains x)]

theorem the_order_of_lowering_of_maze_starts_with_what_is_reached :
    maze.fault? = none ∧ ∃ (r : KeySet) (bs : List Block),
      maze.reachable? = some r ∧ maze.lowerOrder? 0 = some (bs.map some) ∧
      r.toList = [0, 1, 2, 3, 4, 5] ∧ bs.map (·.id) = [0, 4, 3, 2, 1, 5, 6, 7] ∧
      bs.Perm maze.blocks ∧ (bs.map (·.id)).Nodup ∧
      ((bs.take r.size).map (·.id)).Perm (r.toList.map Int.ofNat) ∧
      bs.drop r.size = maze.blocks.filter (fun b => !r.contains b.id) := by
  have hg : maze.fault? = none := by decide
  obtain ⟨e, entry, r, bs, he, -, hr, horder, hperm, hnodup, -, hfirst, hrest⟩ :=
    the_order_of_lowering_starts_with_what_is_reached maze hg
  cases he
  have hkeys : maze.reachable?.map KeySet.toList = some [0, 1, 2, 3, 4, 5] := by decide
  have hids : (maze.lowerOrder? 0).map (List.filterMap (Option.map Block.id)) =
      some [0, 4, 3, 2, 1, 5, 6, 7] := by decide
  rw [hr] at hkeys
  rw [horder] at hids
  refine ⟨hg, r, bs, hr, horder, Option.some.inj hkeys, ?_, hperm, hnodup, hfirst, hrest⟩
  simpa using hids

/-! ## What dominates a block -/

variable {a b : BlockId}

/-- A block comes after those that dominate it. -/
theorem sublist_of_dominates (he : g.entry = some e) (hl : Visits g.successors [] [e] l)
    (hb : b ∈ l) (hne : a ≠ b) (hdom : g.flow.Dominates a b) : [a, b].Sublist l := by
  have hstart : g.flow.Path e [e] := by
    have : g.flow.start = e := by simp [flow, he]
    rw [← this]
    exact .start
  obtain ⟨p, hp, hall⟩ := hl.path (P := g.flow.Path)
    (fun _ _ hp _ hb => .step hp hb) [] (by simpa using ⟨[], hstart, by simp⟩) b hb
  rcases hall a (hdom p hp) with heq | hmem | hbefore
  · exact absurd heq hne
  · cases hmem
  · exact hbefore

/-- Where a block is in the order, those that dominate it are before it. -/
theorem mem_of_dominates (he : g.entry = some e) {l₁ l₂ : List BlockId}
    (hl : Visits g.successors [] [e] (l₁ ++ b :: l₂)) (hne : a ≠ b)
    (hdom : g.flow.Dominates a b) : a ∈ l₁ := by
  have hsub := sublist_of_dominates he hl (by simp) hne hdom
  have hlater : b ∉ l₂ := (List.nodup_cons.mp (List.nodup_append.mp hl.fresh.1).2.1).1
  obtain ⟨p, q, hpq, hp, hq⟩ := List.sublist_append_iff.mp hsub
  cases p with
  | nil =>
    -- both would be from the block on, where the block is only once
    obtain rfl : [a, b] = q := hpq
    have hrest : [a, b].Sublist l₂ := by
      cases hq with
      | cons _ h => exact h
      | cons_cons _ _ => exact absurd rfl hne
    exact absurd (hrest.subset (by simp)) hlater
  | cons x p =>
    obtain ⟨rfl, -⟩ := List.cons.inj hpq
    exact hp.subset List.mem_cons_self

end Graph

/-! ## Values that are given first -/

namespace Lower

/-- Values are in scope that are known, or given at an earlier position. -/
theorem scoped_of_earlier {code : List Instr} {known : List ValueId}
    (h : ∀ (n : Nat) i, code[n]? = some i → ∀ v ∈ i.values,
      v ∈ known ∨ ∃ (m : Nat) (j : Instr), m < n ∧ code[m]? = some j ∧ v ∈ j.gives) :
    Scoped known code := by
  induction code generalizing known with
  | nil => trivial
  | cons i code ih =>
    refine ⟨?_, ih ?_⟩
    · intro v hv
      rcases h 0 i rfl v hv with hknown | ⟨m, j, hm, -⟩
      · exact hknown
      · omega
    · intro n j hj v hv
      rcases h (n + 1) j hj v hv with hknown | ⟨m, k, hm, hk, hgives⟩
      · exact .inl (List.mem_append_right _ hknown)
      · cases m with
        | zero =>
          cases hk
          exact .inl (List.mem_append_left _ hgives)
        | succ m => exact .inr ⟨m, k, by omega, hk, hgives⟩

end Lower

namespace Graph

open Lower (Scoped scoped_append InScope)

variable {g : Graph}

/-- Each value that is named is given by an instruction that comes before on every path. -/
def GivenFirst (g : Graph) : Prop :=
  ∀ b n i, g.At b n i → ∀ v ∈ i.values,
    ∃ a m j, g.At a m j ∧ j.op.defines = true ∧ j.id = v ∧ g.flow.Before a m b n

/-- Blocks in a row have their values in scope when each has after those before it. -/
theorem scoped_codeAt {l : List BlockId} (hl : ∀ b ∈ l, ∃ block, g.block? b = some block)
    (h : ∀ l₁ b l₂ block, l = l₁ ++ b :: l₂ → g.block? b = some block →
      Scoped ((g.codeAt l₁).flatMap (·.gives)) block.code) : Scoped [] (g.codeAt l) := by
  -- the induction is on the blocks to come; what those before them give is known
  have hfrom : ∀ l₂ l₁, l = l₁ ++ l₂ → Scoped ((g.codeAt l₁).flatMap (·.gives)) (g.codeAt l₂) := by
    intro l₂
    induction l₂ with
    | nil => exact fun _ _ => trivial
    | cons b l₂ ih =>
      intro l₁ heq
      obtain ⟨block, hblock⟩ := hl b (by simp [heq])
      have hnext := ih (l₁ ++ [b]) (by simp [heq])
      rw [codeAt_append, codeAt_cons hblock, List.flatMap_append] at hnext
      rw [codeAt_cons hblock, scoped_append]
      refine ⟨h l₁ b l₂ block heq hblock, (Lower.Scoped.congr ?_).mp hnext⟩
      intro v
      simp [codeAt, or_comm]
  exact hfrom l [] rfl

theorem At.mem_codeAt {b : BlockId} {n : Nat} {i : Instr} (h : g.At b n i) {l : List BlockId}
    (hb : b ∈ l) : i ∈ g.codeAt l := by
  obtain ⟨-, block, hblock, hi⟩ := h
  exact List.mem_flatMap.mpr ⟨block, List.mem_filterMap.mpr ⟨b, hb, hblock⟩, List.mem_of_getElem? hi⟩

/-- Values that are given first are in scope in the order of lowering. -/
theorem WellFormed.inScope_of_givenFirst (hg : g.WellFormed) (hall : ∀ b ∈ g.order, g.Reaches b)
    (hgiven : g.GivenFirst) : InScope g := by
  obtain ⟨e, hmem, he⟩ := hg.entry
  obtain ⟨l, hl, -⟩ := hg.lowerOrder?_eq hmem
  have hreach : ∀ b, b ∈ l ↔ g.Reaches b := fun b => hg.mem_visits he hl
  have hrest : g.order.filter (· ∉ l) = [] := by
    rw [List.filter_eq_nil_iff]
    intro b hb
    simpa [hreach] using hall b hb
  rw [hg.inScope_iff he hl, hrest, List.append_nil]
  have hlisted : ∀ b ∈ l, b ∈ g.order := fun b hb => hg.mem_of_reaches ((hreach b).mp hb)
  apply scoped_codeAt
  · intro b hb
    obtain ⟨block, hblock, -⟩ := hg.block b (hlisted b hb)
    exact ⟨block, hblock⟩
  · rintro l₁ b l₂ block rfl hblock
    apply Lower.scoped_of_earlier
    intro n i hi v hv
    obtain ⟨a, m, j, hj, hdefines, rfl, hbefore⟩ :=
      hgiven b n i ⟨hlisted b (by simp), block, hblock, hi⟩ v hv
    have hgives : j.id ∈ j.gives := by simp [Instr.gives_of_defines hdefines]
    rcases hbefore with ⟨rfl, hlt⟩ | ⟨hne, hdom⟩
    · obtain ⟨-, block', hblock', hj⟩ := hj
      rw [hblock] at hblock'
      cases hblock'
      exact .inr ⟨m, j, hlt, hj, hgives⟩
    · have ha : a ∈ l₁ := mem_of_dominates he hl hne hdom
      exact .inl (List.mem_flatMap.mpr ⟨j, hj.mem_codeAt ha, hgives⟩)

end Graph

/-! ## Lowering values in scope -/

/-- The failure is that of a value which is used before it is lowered. -/
def LowerError.EarlyUse : LowerError → Prop
  | .instr _ _ _ (.usedBeforeDefinition _) => True
  | _ => False

namespace Lower

/-- What comes after some steps is in scope of the values that they leave. -/
theorem steps_scoped {ws rest : List (Nat × Instr)} {r r' : Symbols × Frame}
    (h : Scoped (r.2.values.map (·.1)) ((ws ++ rest).map (·.2)))
    (hrun : ws.foldlM lowerStep r = .ok r') :
    Scoped (r'.2.values.map (·.1)) (rest.map (·.2)) := by
  induction ws generalizing r with
  | nil =>
    cases hrun
    exact h
  | cons w ws ih =>
    obtain ⟨r₁, hone, hrest⟩ := bind_eq_ok.mp hrun
    obtain ⟨-, hlater⟩ := h
    rw [← lowerInstr_values hone] at hlater
    exact ih hlater hrest

/-- Where values are in scope, no instruction is refused for one. -/
theorem Fails.not_earlyUse {bs : List (Option Block)} {r : Symbols × Frame} {e : LowerError}
    (h : Fails bs r e)
    (hscope : Scoped (r.2.values.map (·.1)) ((bs.filterMap id).flatMap (·.code))) :
    ¬ e.EarlyUse := by
  cases h with
  | lost _ _ => exact not_false
  | refused hb hi hwork hrun hstop =>
    rw [← map_workOf r.2.blocks, hwork] at hscope
    obtain ⟨hknown, -⟩ := steps_scoped hscope hrun
    cases lowerInstr_refuses hstop with
    | early hv hno => exact absurd (hknown _ hv) hno
    | _ => exact not_false

/-- A graph whose values are in scope does not fail for a value that is used too early. -/
theorem lowerGraph_inScope {g : Graph} (hg : g.WellFormed) (hs : InScope g) {s : Symbols}
    {place : Nat} {e : LowerError} (h : lowerGraph s place g = .error e) : ¬ e.EarlyUse := by
  rcases fails_of_lowerGraph h with
    ⟨v, rfl⟩ | rfl | ⟨function, id, entry, order, -, hid, horder, hfails⟩
  · exact not_false
  · exact not_false
  · obtain ⟨id', hmem, hid'⟩ := hg.entry
    rw [hid] at hid'
    cases hid'
    obtain ⟨bs, rfl, -⟩ := hg.lowerOrder? hmem horder
    refine hfails.not_earlyUse ?_
    rw [(openFrame_head function g entry).1]
    simpa using hs id bs hid horder

end Lower

namespace Graph

/-- A block is lowered after all that dominate it. Where a path comes to every block and values
are given first, lowering does not fail for a value that is used before its definition. -/
theorem what_dominates_a_block_is_lowered_first (g : Graph) (hg : g.fault? = none) :
    ∃ (e : BlockId) (bs : List Block), g.entry = some e ∧ g.lowerOrder? e = some (bs.map some) ∧
      (bs.map (·.id)).Nodup ∧
      (∀ a b, a ≠ b → g.Reaches b → g.flow.Dominates a b → [a, b].Sublist (bs.map (·.id))) ∧
      ((∀ b ∈ g.order, g.Reaches b) → g.GivenFirst → ∀ s place block id op v,
        Lower.lowerGraph s place g ≠ .error (.instr block id op (.usedBeforeDefinition v))) := by
  have hwf := fault?_eq_none.mp hg
  obtain ⟨e, hmem, he⟩ := hwf.entry
  obtain ⟨l, hl, horder⟩ := hwf.lowerOrder?_eq hmem
  refine ⟨e, _, he, horder, ?_⟩
  rw [hwf.map_id_visits hmem hl]
  refine ⟨(hwf.perm_visits hmem hl).nodup_iff.mpr hwf.nodup, ?_, ?_⟩
  · intro a b hne hb hdom
    have hbefore := sublist_of_dominates he hl ((hwf.mem_visits he hl).mpr hb) hne hdom
    exact hbefore.trans (List.sublist_append_left _ _)
  · intro hall hgiven s place block id op v hfail
    exact Lower.lowerGraph_inScope hwf (hwf.inScope_of_givenFirst hall hgiven) hfail trivial

/-- A loop that is left through its second block, which is listed before its first. -/
def weaving : Graph where
  name := "weaving"
  slots :=
    [some { id := 0, name := "in",
            code := [{ op := .arg, id := 0, block := 0 },
                     { op := .br, args := [.block 2], id := 1, block := 0 }] },
     some { id := 1, name := "under",
            code := [{ op := .add, args := [.value 4, .value 0], id := 2, block := 1 },
                     { op := .brif, args := [.value 2, .block 2, .block 3], id := 3, block := 1 }] },
     some { id := 2, name := "over",
            code := [{ op := .mul, args := [.value 0, .value 0], id := 4, block := 2 },
                     { op := .brif, args := [.value 4, .block 1, .block 1], id := 5, block := 2 }] },
     some { id := 3, name := "out",
            code := [{ op := .ret, args := [.value 2], id := 6, block := 3 }] }]
  order := [0, 1, 2, 3]
  entry := some 0
  nextValue := 7

theorem weaving_givenFirst : weaving.GivenFirst := by
  have hwf : weaving.WellFormed := fault?_eq_none.mp (by decide)
  have hover : weaving.flow.Dominates 2 1 := hwf.dominates_of_only (by decide) (by decide)
  have hunder : weaving.flow.Dominates 1 3 := hwf.dominates_of_only (by decide) (by decide)
  have hin : ∀ b, weaving.flow.Dominates 0 b := fun b l hl => hl.start_mem
  have hall : ∀ b ∈ weaving.blocks, ∀ i ∈ b.code.zipIdx, ∀ v ∈ i.1.values,
      ∃ a ∈ weaving.blocks, ∃ j ∈ a.code.zipIdx, j.1.op.defines = true ∧ j.1.id = v ∧
        (a.id = b.id ∧ j.2 < i.2 ∨
          a.id ≠ b.id ∧ (a.id = 0 ∨ a.id = 2 ∧ b.id = 1 ∨ a.id = 1 ∧ b.id = 3)) := by decide
  rintro b n i ⟨hb, block, hblock, hi⟩ v hv
  obtain ⟨block', hmem, ⟨j, m⟩, hj, hdefines, hid, hplace⟩ :=
    hall block (mem_blocks.mpr ⟨b, hb, hblock⟩) (i, n) (List.mk_mem_zipIdx_iff_getElem?.mpr hi) v hv
  obtain ⟨a, ha, hblock'⟩ := mem_blocks.mp hmem
  refine ⟨a, m, j, ⟨ha, block', hblock', List.mk_mem_zipIdx_iff_getElem?.mp hj⟩, hdefines, hid, ?_⟩
  rw [(hwf.block_of_mem hb hblock).id_eq, (hwf.block_of_mem ha hblock').id_eq] at hplace
  rcases hplace with hsame | ⟨hne, rfl | ⟨rfl, rfl⟩ | ⟨rfl, rfl⟩⟩
  · exact .inl hsame
  · exact .inr ⟨hne, hin b⟩
  · exact .inr ⟨hne, hover⟩
  · exact .inr ⟨hne, hunder⟩

theorem what_dominates_a_block_of_weaving_is_lowered_first :
    weaving.fault? = none ∧ weaving.flow.Dominates 2 1 ∧
    (∃ bs : List Block, weaving.lowerOrder? 0 = some (bs.map some) ∧
      [2, 1].Sublist (bs.map (·.id))) ∧
    weaving.GivenFirst ∧ ∀ s place block id op v,
      Lower.lowerGraph s place weaving ≠ .error (.instr block id op (.usedBeforeDefinition v)) := by
  have hg : weaving.fault? = none := by decide
  have hwf := fault?_eq_none.mp hg
  have hover : weaving.flow.Dominates 2 1 := hwf.dominates_of_only (by decide) (by decide)
  have hfirst : weaving.Reaches 2 := .edge (hwf.reaches_entry rfl) (by decide)
  have hsecond : weaving.Reaches 1 := .edge hfirst (by decide)
  have hall : ∀ b ∈ weaving.order, weaving.Reaches b := by
    simp only [weaving, List.forall_mem_cons]
    exact ⟨hwf.reaches_entry rfl, hsecond, hfirst, .edge hsecond (by decide), by simp⟩
  obtain ⟨e, bs, he, horder, -, hbefore, hnever⟩ := what_dominates_a_block_is_lowered_first weaving hg
  cases he
  exact ⟨hg, hover, ⟨bs, horder, hbefore 2 1 (by decide) hsecond hover⟩, weaving_givenFirst,
    hnever hall weaving_givenFirst⟩

end Graph

end FlowGraph

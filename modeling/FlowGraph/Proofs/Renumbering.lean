import FlowGraph.Proofs.BypassedLowering
import FlowGraph.Proofs.OptimizedText

/-!
Printing what calls of the elimination of empty blocks leave, and reading it
again. Blocks that are gone leave gaps in the numbers of blocks and of values.
The text has no numbers of blocks, and its names of values are only names, so
reading counts both anew: each block and each value gets the number of its
place, and all else is as it was.
-/

namespace FlowGraph

/-! ## Numbering by place -/

/-- The instruction with blocks and values numbered anew. -/
def Instr.renumber (block : BlockId → BlockId) (value : ValueId → ValueId) (i : Instr) : Instr where
  toAction := i.toAction.renumber block value
  id := value i.id
  block := block i.block

/-- The block with blocks and values numbered anew. -/
def Block.renumber (block : BlockId → BlockId) (value : ValueId → ValueId) (b : Block) : Block :=
  { b with id := block b.id, code := b.code.map (Instr.renumber block value) }

/-- The map numbers the members of the list from zero on, in the order of their size. -/
structure Numbers (f : Int → Int) (ids : List Int) : Prop where
  bijective : Set.BijOn f {x | x ∈ ids} {k | 0 ≤ k ∧ k < ids.length}
  rising : ∀ x ∈ ids, ∀ y ∈ ids, x < y → f x < f y

/-- In a list that rises, places are numbers in the order of size. -/
theorem numbers_idxOf {ids : List Int} (h : ids.Pairwise (· < ·)) :
    Numbers (fun x => (ids.idxOf x : Nat)) ids := by
  have hnodup : ids.Nodup := h.imp Int.ne_of_lt
  refine ⟨⟨?_, ?_, ?_⟩, ?_⟩
  · intro x hx
    exact ⟨Int.natCast_nonneg _, Int.ofNat_lt.mpr (List.idxOf_lt_length_of_mem hx)⟩
  · intro x hx y _ heq
    exact (List.idxOf_inj hx).mp (Int.ofNat.inj heq)
  · rintro k ⟨hpos, hlt⟩
    obtain ⟨n, rfl⟩ := Int.eq_ofNat_of_zero_le hpos
    have hn : n < ids.length := Int.ofNat_lt.mp hlt
    exact ⟨ids[n], List.getElem_mem hn, congrArg Int.ofNat (hnodup.idxOf_getElem n hn)⟩
  · intro x hx y hy hlt
    have hx' := List.idxOf_lt_length_of_mem hx
    have hy' := List.idxOf_lt_length_of_mem hy
    refine Int.ofNat_lt.mpr (Nat.lt_of_not_le fun hle => ?_)
    rcases Nat.lt_or_eq_of_le hle with hback | hsame
    · have := List.pairwise_iff_getElem.mp h _ _ hy' hx' hback
      rw [List.getElem_idxOf, List.getElem_idxOf] at this
      omega
    · have := (List.idxOf_inj hy).mp hsame
      omega

namespace Graph

/-- The place of a block in the order. -/
def blockPlace (g : Graph) (b : BlockId) : BlockId := (g.order.idxOf b : Nat)

/-- The place of an instruction in the code of all blocks. -/
def valuePlace (g : Graph) (v : ValueId) : ValueId := ((g.instrs.map (·.id)).idxOf v : Nat)

/-- The graph with each block and each instruction numbered by its place. -/
def renumbered (g : Graph) : Graph where
  name := g.name
  slots := (g.blocks.map (Block.renumber g.blockPlace g.valuePlace)).map some
  order := g.order.map g.blockPlace
  entry := g.entry.map g.blockPlace
  nextValue := g.instrs.length

/-! ## The outline of a graph -/

/-- The graph the way it is written. -/
def outline (g : Graph) : Outline where
  name := g.name
  blocks := g.blocks.map fun b =>
    (b.name, b.code.map fun i => i.toAction.renumber g.blockPlace g.valuePlace)
  entry := g.entry.map g.order.idxOf

theorem actions_outline (g : Graph) : g.outline.actions =
    g.instrs.map fun i => i.toAction.renumber g.blockPlace g.valuePlace := by
  unfold Outline.actions outline instrs
  rw [List.flatMap_map, List.map_flatMap]

theorem labels_outline (g : Graph) : g.outline.labels = g.blocks.map (·.name) := by
  unfold Outline.labels outline
  rw [List.map_map]
  rfl

end Graph

section Numbered

variable {block : BlockId → BlockId} {value : ValueId → ValueId}

/-- Code that is numbered without gaps is numbered as it is written. -/
theorem numbered_renumber {b n : Nat} {is : List Instr}
    (hids : is.map (fun i => value i.id) = (List.range' n is.length).map Int.ofNat)
    (hown : ∀ i ∈ is, block i.block = b) :
    numbered b n (is.map fun i => i.toAction.renumber block value) =
      is.map (Instr.renumber block value) := by
  induction is generalizing n with
  | nil => rfl
  | cons i is ih =>
    rw [List.map_cons, List.length_cons, List.range'_succ, List.map_cons] at hids
    obtain ⟨hid, hids⟩ := List.cons.inj hids
    obtain ⟨hi, hown⟩ := List.forall_mem_cons.mp hown
    have hnext := ih hids hown
    unfold numbered at hnext ⊢
    rw [List.map_cons, List.zipIdx_cons, List.map_cons, hnext, List.map_cons]
    unfold Instr.renumber
    rw [hid, hi]
    rfl

/-- So are blocks. -/
theorem blocksFrom_renumber {k n : Nat} {bs : List Block}
    (hblocks : bs.map (fun b => block b.id) = (List.range' k bs.length).map Int.ofNat)
    (hids : (bs.flatMap (·.code)).map (fun i => value i.id) =
      (List.range' n (bs.flatMap (·.code)).length).map Int.ofNat)
    (hown : ∀ b ∈ bs, b.owner = .holder ∧ ∀ i ∈ b.code, i.block = b.id) :
    blocksFrom k n
        (bs.map fun b => (b.name, b.code.map fun i => i.toAction.renumber block value)) =
      bs.map (Block.renumber block value) := by
  induction bs generalizing k n with
  | nil => rfl
  | cons b bs ih =>
    rw [List.map_cons, List.length_cons, List.range'_succ, List.map_cons] at hblocks
    obtain ⟨hid, hblocks⟩ := List.cons.inj hblocks
    obtain ⟨⟨howner, hcode⟩, hown⟩ := List.forall_mem_cons.mp hown
    rw [List.flatMap_cons, List.map_append, List.length_append, ← List.range'_append_1,
      List.map_append] at hids
    obtain ⟨hfirst, hids⟩ := List.append_inj hids (by simp)
    have hnext := ih hblocks hids hown
    have hplace : ∀ i ∈ b.code, block i.block = k := by
      intro i hi
      rw [hcode i hi]
      exact hid
    have hnumbered := numbered_renumber hfirst hplace
    rw [List.map_cons, blocksFrom, List.length_map, hnext, hnumbered, List.map_cons]
    unfold Block.renumber
    rw [hid, howner]
    rfl

end Numbered

namespace Graph

variable {g : Graph}

theorem WellFormed.own (h : g.WellFormed) {b : Block} (hb : b ∈ g.blocks) :
    b.owner = .holder ∧ ∀ i ∈ b.code, i.block = b.id := by
  obtain ⟨id, hid, hblock⟩ := mem_blocks.mp hb
  have hfits := h.block_of_mem hid hblock
  exact ⟨hfits.holder, fun i hi => (hfits.own i hi).trans hfits.id_eq.symm⟩

/-- The numbers of places are the first ones. -/
theorem map_blockPlace (h : g.WellFormed) :
    g.order.map g.blockPlace = (List.range g.order.length).map Int.ofNat := by
  rw [← map_idxOf h.nodup, List.map_map]
  rfl

theorem map_valuePlace (hids : (g.instrs.map (·.id)).Nodup) :
    g.instrs.map (fun i => g.valuePlace i.id) = (List.range g.instrs.length).map Int.ofNat := by
  rw [← List.length_map (·.id), ← map_idxOf hids, List.map_map, List.map_map]
  rfl

/-- The blocks of the outline are those of the graph, numbered by their places. -/
theorem blocksFrom_outline (h : g.WellFormed) (hids : (g.instrs.map (·.id)).Nodup) :
    blocksFrom 0 0 g.outline.blocks = g.blocks.map (Block.renumber g.blockPlace g.valuePlace) := by
  apply blocksFrom_renumber
  · have hplaces := map_blockPlace h
    rw [← h.blocks_ids, List.map_map, List.length_map, List.range_eq_range'] at hplaces
    exact hplaces
  · rw [← List.range_eq_range']
    exact map_valuePlace hids
  · exact fun b hb => h.own hb

theorem length_outline (h : g.WellFormed) : g.outline.blocks.length = g.order.length := by
  rw [← h.blocks_ids]
  simp [outline]

/-- The outline of a graph is that of the graph numbered by places. -/
theorem graph_outline (h : g.WellFormed) (hids : (g.instrs.map (·.id)).Nodup) :
    g.outline.graph = g.renumbered := by
  unfold Outline.graph renumbered
  rw [blocksFrom_outline h hids, actions_outline, List.length_map, length_outline h,
    map_blockPlace h]
  unfold outline
  rw [Option.map_map]
  rfl

/-- A block stands among the blocks at its place. -/
theorem WellFormed.getElem?_blocks (h : g.WellFormed) {id : BlockId} (hid : id ∈ g.order) :
    g.blocks[g.order.idxOf id]? = g.block? id := by
  have hall := congrArg (·[g.order.idxOf id]?) (h.map_block? fun _ hx => hx)
  have hlt := List.idxOf_lt_length_of_mem hid
  rw [List.getElem?_map, List.getElem?_map, List.getElem?_eq_getElem hlt, List.getElem_idxOf]
    at hall
  show (g.order.filterMap g.block?)[_]? = _
  cases hplace : (g.order.filterMap g.block?)[g.order.idxOf id]? with
  | none =>
    rw [hplace] at hall
    cases hall
  | some b =>
    rw [hplace] at hall
    exact (Option.some.inj hall).symm

theorem valuePlace_of_getElem? (hids : (g.instrs.map (·.id)).Nodup) {k : Nat} {i : Instr}
    (hi : g.instrs[k]? = some i) : g.valuePlace i.id = k := by
  obtain ⟨hk, rfl⟩ := List.getElem?_eq_some_iff.mp hi
  have hplace := hids.idxOf_getElem k (by rwa [List.length_map])
  rw [List.getElem_map] at hplace
  unfold valuePlace
  rw [hplace]

/-- The name that the value of a place is printed with. -/
def nameAt (g : Graph) (k : ValueId) : String :=
  Text.valueName (((g.instrs.map (·.id))[k.toNat]?).getD 0)

theorem nameAt_valuePlace {i : Instr} (hi : i ∈ g.instrs) :
    g.nameAt (g.valuePlace i.id) = Text.valueName i.id := by
  have hmem : i.id ∈ g.instrs.map (·.id) := List.mem_map_of_mem hi
  unfold nameAt valuePlace
  rw [Int.toNat_natCast, List.getElem?_eq_getElem (List.idxOf_lt_length_of_mem hmem),
    Option.getD_some, List.getElem_idxOf]

end Graph

/-! ## Reading what is printed -/

namespace Text

/-- The graph can be printed, and each value is given before it is named. -/
structure Readable (labels : List String) (g : Graph) : Prop extends Labelled labels g where
  rising : g.instrs.Pairwise fun i j => i.id < j.id
  lower : ∀ i ∈ g.instrs, ∀ v ∈ i.values, v < i.id
  given : ∀ i ∈ g.instrs, ∀ v ∈ i.values, ∃ j ∈ g.instrs, v ∈ j.gives

theorem blockLines_eq (names : ValueId → String) (labels : List String) (k n : Nat)
    (bs : List (String × List Action)) :
    blockLines names labels n bs = (blocksFrom k n bs).flatMap (linesOfBlock names labels) := by
  induction bs generalizing k n with
  | nil => rfl
  | cons e bs ih =>
    rw [blockLines, blocksFrom, List.flatMap_cons, ← ih]
    unfold linesOfBlock numbered
    rw [List.map_map]
    rfl

namespace Readable

variable {labels : List String} {g : Graph} (h : Readable labels g)

include h

theorem nodup_ids : (g.instrs.map (·.id)).Nodup :=
  List.pairwise_map.mpr (h.rising.imp Int.ne_of_lt)

/-- Values of different places are printed with different names. -/
theorem apart : Apart g.nameAt g.instrs.length := by
  intro i j hi hj heq
  obtain ⟨n, hn⟩ := h.number _ (List.getElem_mem hi)
  obtain ⟨m, hm⟩ := h.number _ (List.getElem_mem hj)
  have hi' : (g.instrs.map (·.id))[i]? = some (n : Int) := by
    rw [List.getElem?_map, List.getElem?_eq_getElem hi, Option.map_some, hn]
  have hj' : (g.instrs.map (·.id))[j]? = some (m : Int) := by
    rw [List.getElem?_map, List.getElem?_eq_getElem hj, Option.map_some, hm]
  unfold Graph.nameAt at heq
  rw [Int.toNat_natCast, Int.toNat_natCast, hi', hj'] at heq
  rw [← valueName_inj heq, ← hi'] at hj'
  exact (List.getElem?_inj (by rwa [List.length_map]) h.nodup_ids).mp hj'.symm

/-- An operand is printed with the name that its place has. -/
theorem operandName_renumber {i : Instr} (hi : i ∈ g.instrs) {x : Operand} (hx : x ∈ i.args) :
    operandName g.nameAt g.outline.labels (x.renumber g.blockPlace g.valuePlace) =
      operandName valueName labels x := by
  obtain ⟨given, hproper, -⟩ := h.printable i hi
  rcases hproper.operands x hx with ⟨v, -, rfl⟩ | ⟨k, hk, rfl⟩
  · obtain ⟨j, hj, hgives⟩ := h.given i hi v (Action.mem_values.mpr hx)
    obtain ⟨-, rfl⟩ := Instr.mem_gives.mp hgives
    exact Graph.nameAt_valuePlace hj
  · obtain ⟨b, -, hblock, hname⟩ := h.target hi hx
    have hplace := h.wellFormed.getElem?_blocks (h.wellFormed.target_mem hi hx)
    show (g.outline.labels[(g.order.idxOf (k : Int) : Int).toNat]?).getD "" =
      (labels[(k : Int).toNat]?).getD ""
    rw [Int.toNat_natCast, Int.toNat_natCast, Graph.labels_outline, List.getElem?_map, hplace,
      hblock, hname]
    rfl

theorem instrTokens_renumber {i : Instr} (hi : i ∈ g.instrs) :
    instrTokens g.nameAt g.outline.labels (i.renumber g.blockPlace g.valuePlace) =
      instrTokens valueName labels i := by
  have hargs : ((i.args.map (Operand.renumber g.blockPlace g.valuePlace)).map fun x =>
      Token.ident (operandName g.nameAt g.outline.labels x)) =
      i.args.map fun x => Token.ident (operandName valueName labels x) := by
    rw [List.map_map]
    exact List.map_congr_left fun x hx => congrArg Token.ident (h.operandName_renumber hi hx)
  have hname := Graph.nameAt_valuePlace hi
  unfold instrTokens actionTokens Instr.renumber
  dsimp only
  rw [hname]
  unfold Action.renumber
  dsimp only
  rw [hargs]
  rfl

/-- The header names the entry of the outline. -/
theorem entryName_eq : entryName g = entryLabel g.outline := by
  obtain ⟨e, hmem, he⟩ := h.wellFormed.entry
  obtain ⟨block, hblock, -⟩ := h.wellFormed.block e hmem
  have hplace := h.wellFormed.getElem?_blocks hmem
  have hentry : g.outline.entry = some (g.order.idxOf e) := by simp [Graph.outline, he]
  unfold entryName entryLabel Graph.entryBlock?
  rw [Graph.labels_outline, hentry, he, Option.bind_some, Option.bind_some, List.getElem?_map,
    hplace]
  obtain ⟨first, rest, horder⟩ := List.exists_cons_of_ne_nil (List.ne_nil_of_mem hmem)
  rw [horder, List.head?_cons]
  by_cases hfirst : first = e
  · simp [hfirst]
  · simp [hfirst, List.idxOf_cons_ne _ hfirst]

/-- The lines of the graph are those of its outline. -/
theorem lines_eq : (funcOfGraph labels g).lines = listing g.nameAt g.outline := by
  have hheader : (funcOfGraph labels g).header = headerTokens g.outline := by
    unfold Func.header headerTokens funcOfGraph
    rw [← h.entryName_eq]
    cases entryName g <;> rfl
  have hbody : (funcOfGraph labels g).body =
      blockLines g.nameAt g.outline.labels 0 g.outline.blocks := by
    rw [blockLines_eq _ _ 0, Graph.blocksFrom_outline h.wellFormed h.nodup_ids, List.flatMap_map]
    refine List.flatMap_congr fun b hb => ?_
    have hcode : ∀ i ∈ b.code, instrTokens valueName labels i =
        instrTokens g.nameAt g.outline.labels (i.renumber g.blockPlace g.valuePlace) :=
      fun i hi => (h.instrTokens_renumber (List.mem_flatMap.mpr ⟨b, hb, hi⟩)).symm
    unfold linesOfBlock Block.renumber
    dsimp only
    rw [List.map_map, List.map_congr_left hcode]
    rfl
  unfold Func.lines listing
  rw [hheader, hbody]

/-- The outline is one that a text can have. -/
theorem valid : g.outline.Valid where
  name := h.name
  labels n hn := by
    rw [Graph.labels_outline] at hn
    obtain ⟨b, hb, rfl⟩ := List.mem_map.mp hn
    exact h.idents _ (h.label hb)
  nodup := by
    rw [Graph.labels_outline]
    exact h.nodup_names
  entry := by
    obtain ⟨e, hmem, he⟩ := h.wellFormed.entry
    refine ⟨g.order.idxOf e, by simp [Graph.outline, he], ?_⟩
    rw [Graph.length_outline h.wellFormed]
    exact List.idxOf_lt_length_of_mem hmem
  proper k a ha := by
    rw [Graph.actions_outline, List.getElem?_map] at ha
    obtain ⟨i, hi, rfl⟩ := Option.map_eq_some_iff.mp ha
    have hmem := List.mem_of_getElem? hi
    obtain ⟨given, hproper, -⟩ := h.printable i hmem
    refine hproper.renumber (fun b hb => ?_) fun v hv => ?_
    · refine ⟨g.order.idxOf b, ?_, rfl⟩
      rw [Graph.length_outline h.wellFormed]
      exact List.idxOf_lt_length_of_mem (h.wellFormed.target_mem hmem hb)
    · -- the value is given by an instruction of a lower number, which stands before
      have hvalue := Action.mem_values.mpr hv
      obtain ⟨j, hj, hgives⟩ := h.given i hmem v hvalue
      obtain ⟨hgoes, rfl⟩ := Instr.mem_gives.mp hgives
      obtain ⟨m, hm⟩ := List.mem_iff_getElem?.mp hj
      have hlt : m < k := by
        obtain ⟨hk', rfl⟩ := List.getElem?_eq_some_iff.mp hi
        obtain ⟨hm', rfl⟩ := List.getElem?_eq_some_iff.mp hm
        refine Nat.lt_of_not_le fun hle => ?_
        have hbelow := h.lower _ hmem _ hvalue
        rcases Nat.lt_or_eq_of_le hle with hback | rfl
        · exact Int.lt_asymm hbelow (List.pairwise_iff_getElem.mp h.rising k m hk' hm' hback)
        · exact Int.lt_irrefl _ hbelow
      refine ⟨m, j.toAction.renumber g.blockPlace g.valuePlace, ?_, ?_,
        Graph.valuePlace_of_getElem? h.nodup_ids hm⟩
      · rw [List.getElem?_take_of_lt hlt, Graph.actions_outline, List.getElem?_map, hm]
        rfl
      · show j.op.defines = true
        rw [defines_eq (h.printable j hj), hgoes]
        rfl

end Readable

/-- Functions with names of their own are printed, and read again with their blocks and values
numbered by their places. -/
theorem read_renumbered {α : Type} {labels : α → List String} {graph : α → Graph} {xs : List α}
    (h : ∀ x ∈ xs, Readable (labels x) (graph x))
    (hnames : (xs.map fun x => (graph x).name).Nodup) :
    ∃ out, printFunctions (xs.map graph) = .ok out ∧ ∀ path, read path (bytesOf out) =
      .ok { path := path, functions := (xs.map graph).map Graph.renumbered } := by
  obtain ⟨out, ls, hprint, hls, hmap⟩ := lines_printed fun x hx => (h x hx).toLabelled
  refine ⟨out, hprint, fun path => ?_⟩
  rw [List.flatMap_congr fun x hx => (h x hx).lines_eq] at hmap
  have hread := readFunctions_lines (fun x hx => (h x hx).valid) (fun x hx => by
    rw [Graph.actions_outline, List.length_map]
    exact (h x hx).apart) [] hnames hmap
  have hgraphs : (xs.map fun x => (graph x).outline.graph) =
      (xs.map graph).map Graph.renumbered := by
    rw [List.map_map]
    exact List.map_congr_left fun x hx =>
      Graph.graph_outline (h x hx).wellFormed (h x hx).nodup_ids
  unfold read
  rw [hls]
  dsimp only
  rw [hread, List.nil_append, hgraphs]
  rfl

end Text

/-! ## Calls of the elimination -/

/-- What so many calls of the elimination of empty blocks leave. -/
def Graph.skipEmptyTimes (n : Nat) (g : Graph) : Graph := (fun g => g.eliminateEmpty.state)^[n] g

/-- However often it is called, the elimination takes out only jumps. -/
theorem Graph.WellFormed.skipEmptyTimes {g : Graph} (hg : g.WellFormed) (n : Nat) :
    g.Trimmed (g.skipEmptyTimes n) ∧ g.LowersLike (g.skipEmptyTimes n) := by
  induction n with
  | zero => exact ⟨.refl hg, .refl g⟩
  | succ n ih =>
    obtain ⟨htrimmed, hlike⟩ := ih
    have hwf := htrimmed.wellFormed
    have hstep : g.skipEmptyTimes (n + 1) = (g.skipEmptyTimes n).eliminateEmpty.state :=
      Function.iterate_succ_apply' _ n g
    rw [hstep]
    refine ⟨?_, hlike.trans hwf.lowersLike_eliminateEmpty⟩
    obtain ⟨gone, f, hlooked, hstate, -⟩ := hwf.eliminateEmpty
    rw [hstate]
    exact htrimmed.edited (hlooked.edited hwf)

/-- So no value is lost, and what is left can be read. -/
theorem Outline.Valid.readable {o : Outline} (ho : o.Valid) (hwf : o.graph.WellFormed) (n : Nat) :
    Text.Readable o.labels (o.graph.skipEmptyTimes n) := by
  obtain ⟨htrimmed, hlike⟩ := hwf.skipEmptyTimes n
  refine ⟨htrimmed.labelled ho hwf, htrimmed.rising, htrimmed.lower ho hwf, ?_⟩
  obtain ⟨f, hfrom⟩ := htrimmed.instr_of_mem hwf
  obtain ⟨f', hstays⟩ := hlike.instrs
  intro i' hi' v hv
  obtain ⟨i, hi, rfl⟩ := hfrom i' hi'
  rw [Instr.retarget_values] at hv
  obtain ⟨j, hj, rfl, hdefines, -⟩ := ho.written.values i hi v (Action.mem_values.mp hv)
  have hop : j.op ≠ .br := by
    intro hop
    rw [hop] at hdefines
    cases hdefines
  have hleft : j.retarget f' ∈ Lower.withoutJumps (o.graph.skipEmptyTimes n).instrs := by
    rw [hstays]
    exact List.mem_map_of_mem (Lower.mem_withoutJumps.mpr ⟨hj, hop⟩)
  refine ⟨j.retarget f', (Lower.mem_withoutJumps.mp hleft).1, ?_⟩
  have hgives : (j.retarget f').gives = [j.id] := Instr.gives_of_defines hdefines
  rw [hgives]
  exact List.mem_singleton_self _

/-- The program after so many calls on each of its functions. -/
def Program.skipEmptyTimes (p : Program) (calls : Graph → Nat) : Program :=
  p.mapFunctions fun g => g.skipEmptyTimes (calls g)

/-- A text that is read, whose functions pass the check, is printed after any number of calls of
the elimination of empty blocks on each function. What is printed is read, and gives the same
functions with their live blocks and their instructions numbered from zero on, in their order. -/
theorem reading_what_is_left_of_a_text_counts_it_anew {path : String} {text : List UInt8}
    {p : Program} (h : Text.read path text = .ok p) (hcheck : ∀ g ∈ p.functions, g.fault? = none)
    (calls : Graph → Nat) :
    (∃ out, Text.printFunctions (p.skipEmptyTimes calls).functions = .ok out ∧
      ∀ path', Text.read path' (Text.bytesOf out) = .ok {
        path := path'
        functions := (p.skipEmptyTimes calls).functions.map Graph.renumbered }) ∧
    ∀ g ∈ (p.skipEmptyTimes calls).functions,
      Numbers g.blockPlace g.order ∧ Numbers g.valuePlace (g.instrs.map (·.id)) := by
  obtain ⟨-, os, hos, hvalid, hnames⟩ := Text.wellRead_of_read h
  have hwf : ∀ o ∈ os, o.graph.WellFormed := by
    intro o ho
    refine Graph.fault?_eq_none.mp (hcheck _ ?_)
    rw [hos]
    exact List.mem_map_of_mem ho
  have htrimmed : ∀ o ∈ os, o.graph.Trimmed (o.graph.skipEmptyTimes (calls o.graph)) :=
    fun o ho => ((hwf o ho).skipEmptyTimes _).1
  have hreadable : ∀ o ∈ os, Text.Readable o.labels (o.graph.skipEmptyTimes (calls o.graph)) :=
    fun o ho => (hvalid o ho).readable (hwf o ho) _
  have hnodup : (os.map fun o => (o.graph.skipEmptyTimes (calls o.graph)).name).Nodup := by
    rw [List.map_congr_left fun o ho => (htrimmed o ho).name]
    exact hnames
  have hfunctions : (p.skipEmptyTimes calls).functions =
      os.map fun o => o.graph.skipEmptyTimes (calls o.graph) := by
    unfold Program.skipEmptyTimes Program.mapFunctions
    rw [hos, List.map_map]
    rfl
  rw [hfunctions]
  constructor
  · exact Text.read_renumbered hreadable hnodup
  · rw [List.forall_mem_map]
    intro o ho
    constructor
    · have hrising : o.graph.order.Pairwise (· < ·) :=
        List.pairwise_map.mpr (List.pairwise_lt_range.imp Int.ofNat_lt.mpr)
      exact numbers_idxOf (hrising.sublist (htrimmed o ho).order)
    · exact numbers_idxOf (List.pairwise_map.mpr (htrimmed o ho).rising)

/-- One call on the function of this name, and two on each other. -/
def Graph.strollCalls (g : Graph) : Nat := if g.name = "stroll" then 1 else 2

/-- What is read after so many calls on the functions of `strolls`. -/
def Program.strollsAnew : Program where
  path := "anew"
  functions := [
    Outline.graph {
      name := "stroll"
      blocks := [
        ("far", [.br 2]),
        ("go", [.arg 1, .brif 1 0 2]),
        ("near", [.br 3]),
        ("join", [.call "out" [1], .ret [4]])]
      entry := some 1 },
    Outline.graph {
      name := "main"
      blocks := [
        ("in", [.const 7, .call "stroll" [0, 0], .brif 1 1 1]),
        ("leave", [.ret [1]])]
      entry := some 0 }]

theorem reading_what_is_left_of_strolls_counts_it_anew :
    Text.read "strolls" Program.strollsText = .ok Program.strolls ∧
      (∀ g ∈ Program.strolls.functions, g.fault? = none) ∧
      (Program.strolls.skipEmptyTimes Graph.strollCalls).functions.map
          (fun g => (g.order, g.entry, g.instrs.map (·.id))) =
        [([1, 2, 3, 4], some 2, [1, 2, 3, 4, 5, 6]), ([0, 3], some 0, [0, 1, 2, 5])] ∧
      ∃ out, Text.printFunctions (Program.strolls.skipEmptyTimes Graph.strollCalls).functions =
          .ok out ∧
        Text.read "anew" (Text.bytesOf out) = .ok Program.strollsAnew := by
  have hread : Text.read "strolls" Program.strollsText = .ok Program.strolls := by decide +kernel
  have hcheck : ∀ g ∈ Program.strolls.functions, g.fault? = none := by decide +kernel
  have hanew : (Program.strolls.skipEmptyTimes Graph.strollCalls).functions.map Graph.renumbered =
      Program.strollsAnew.functions := by decide +kernel
  obtain ⟨⟨out, hprint, hagain⟩, -⟩ :=
    reading_what_is_left_of_a_text_counts_it_anew hread hcheck Graph.strollCalls
  refine ⟨hread, hcheck, by decide +kernel, out, hprint, ?_⟩
  rw [hagain, hanew]
  rfl

end FlowGraph

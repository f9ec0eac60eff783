import FlowGraph.Proofs.LoweringSteps
import FlowGraph.Proofs.Outline

/-!
The blocks of a lowered function are those of its graph. Each block of the
graph has a place of its own, in the order of the graph with the entry first.
It is ended once, after all that goes into it, and is then left for the places
of its successors.
-/

namespace FlowGraph.Lower

/-! ## The shape of a function -/

/-- The blocks of a graph in the order of their places. -/
def layout (g : Graph) (e : BlockId) : List BlockId := e :: g.order.filter (fun x => x ≠ e)

/-- The names of what is put in front of the blocks: a block, if one branches to the entry. -/
def front (g : Graph) (e : BlockId) : List String :=
  if (g.predecessors e).isEmpty then [] else [prologueName]

/-- The place of a block of the graph, in a function that had so many blocks before. -/
def placeIn (g : Graph) (e : BlockId) (base : Nat) (b : BlockId) : Nat :=
  base + (front g e).length + (layout g e).idxOf b

/-- The blocks of a function from a place on are those of a graph. -/
structure Mirrors (g : Graph) (e : BlockId) (base : Nat) (blocks : List Llvm.Block) : Prop where
  -- one block for each block of the graph, in order, after the one in front
  names : (blocks.drop base).map (·.name) = front g e ++ (layout g e).map g.blockName
  -- each ends in a terminator that leads to the places of the successors
  ends : ∀ b ∈ g.order, ∃ block t, blocks[placeIn g e base b]? = some block ∧
    block.name = g.blockName b ∧ block.term = some t ∧
    t.targets = (g.successors b).map (fun x => some (placeIn g e base x))
  -- what is in front only leads to the entry
  jump : front g e ≠ [] → blocks[base]? =
    some { name := prologueName, term := some (.br (some (placeIn g e base e))) }
  -- nothing leads to the first of these blocks, or to one before
  first : ∀ block ∈ blocks.drop base, ∀ t, block.term = some t →
    ∀ k, some k ∈ t.targets → base < k

/-- Along the steps, the block at a place has nothing that ends it until one instruction is
lowered into it, and is as in the end from then on. -/
def EndsOnce (start : Symbols × Frame) (work : List (Nat × Instr)) (k : Nat)
    (block : Llvm.Block) : Prop :=
  ∃ before i after, work = before ++ (k, i) :: after ∧
    (∀ part, part <+: before → ∃ r b, part.foldlM lowerStep start = .ok r ∧
      r.2.function.blocks[k]? = some b ∧ b.term = none) ∧
    ∀ part, part <+: after → ∃ r, (before ++ (k, i) :: part).foldlM lowerStep start = .ok r ∧
      r.2.function.blocks[k]? = some block

/-- How a graph was lowered: from the frame that was opened, through its instructions in the
order of lowering, to the last frame. -/
structure LoweredBy (s s' : Symbols) (place : Nat) (g : Graph) (function : Llvm.Function)
    (e : BlockId) (entry : Block) (bs : List Block) (last : Symbols × Frame) : Prop where
  enters : g.entry = some e ∧ g.block? e = some entry
  declared : s.functions[place]? = some function
  order : g.lowerOrder? e = some (bs.map some)
  run : (workOf (openFrame function g entry).blocks bs).foldlM lowerStep
    (s, openFrame function g entry) = .ok last
  result : s' = { last.1 with functions := last.1.functions.set place last.2.function }

theorem nodup_layout {g : Graph} (hg : g.WellFormed) (e : BlockId) : (layout g e).Nodup :=
  List.nodup_cons.mpr ⟨by simp, hg.nodup.filter _⟩

theorem mem_layout {g : Graph} {e b : BlockId} (he : e ∈ g.order) :
    b ∈ layout g e ↔ b ∈ g.order := by
  unfold layout
  rw [List.mem_cons, List.mem_filter]
  by_cases hb : b = e
  · simp [hb, he]
  · simp [hb]

/-- Different blocks have different places. -/
theorem placeIn_inj {g : Graph} {e b b' : BlockId} (he : e ∈ g.order) (base : Nat)
    (hb : b ∈ g.order) (h : placeIn g e base b = placeIn g e base b') : b = b' := by
  unfold placeIn at h
  exact (List.idxOf_inj ((mem_layout he).mpr hb)).mp (by omega)

theorem placeIn_entry (g : Graph) (e : BlockId) (base : Nat) :
    placeIn g e base e = base + (front g e).length := by
  simp [placeIn, layout]

/-- No branch leads to the first place, since no block branches to the entry when it is there. -/
theorem base_lt_placeIn {g : Graph} {b x : BlockId} (e : BlockId) (base : Nat) (hb : b ∈ g.order)
    (hx : x ∈ g.successors b) : base < placeIn g e base x := by
  unfold placeIn front
  split
  · rename_i hpreds
    have hne : x ≠ e := by
      rintro rfl
      have hmem : b ∈ g.predecessors x := by
        unfold Graph.predecessors
        rw [List.mem_filter]
        exact ⟨hb, by simpa using hx⟩
      rw [List.isEmpty_iff.mp hpreds] at hmem
      cases hmem
    unfold layout
    rw [List.idxOf_cons_ne _ hne.symm]
    omega
  · simp only [List.length_singleton]
    omega

theorem mem_workOf {places : List (BlockId × Nat)} {bs : List Block} {w : Nat × Instr} :
    w ∈ workOf places bs ↔ ∃ b ∈ bs, w.1 = (places.lookup b.id).getD 0 ∧ w.2 ∈ b.code := by
  unfold workOf
  simp only [List.mem_flatMap, List.mem_map]
  constructor
  · rintro ⟨b, hb, i, hi, rfl⟩
    exact ⟨b, hb, rfl, hi⟩
  · rintro ⟨b, hb, hk, hi⟩
    exact ⟨b, hb, w.2, hi, by rw [← hk]⟩

section Shape

variable {g : Graph} (hg : g.WellFormed) {e : BlockId} (he : e ∈ g.order) {entry : Block}
  (hentry : g.block? e = some entry) (function : Llvm.Function)

include hg he hentry

theorem map_name_prologue (base : Nat) :
    (prologue base g entry).map (·.name) = front g e := by
  unfold prologue front
  rw [(hg.block_of_mem he hentry).id_eq]
  split <;> rfl

theorem length_prologue (base : Nat) : (prologue base g entry).length = (front g e).length := by
  rw [← map_name_prologue hg he hentry base, List.length_map]

/-- The blocks of the graph, and no others, have places in the frame that is opened. -/
theorem lookup_openFrame {b : BlockId} {k : Nat} :
    (openFrame function g entry).blocks.lookup b = some k ↔
      b ∈ g.order ∧ k = placeIn g e function.blocks.length b := by
  rw [openFrame_eq hg he hentry, lookup_reverse_zipIdx (nodup_placedBlocks hg he hentry),
    map_placedBlocks hg he hentry, length_prologue hg he hentry]
  change _ ∧ (layout g e)[_]? = some b ↔ _
  rw [← mem_layout he]
  unfold placeIn
  constructor
  · rintro ⟨hle, hk⟩
    have hidx := (nodup_layout hg e).idxOf_getElem _ (List.getElem?_eq_some_iff.mp hk).1
    rw [(List.getElem?_eq_some_iff.mp hk).2] at hidx
    exact ⟨List.mem_of_getElem? hk, by omega⟩
  · rintro ⟨hb, rfl⟩
    refine ⟨Nat.le_add_right _ _, ?_⟩
    rw [Nat.add_sub_cancel_left]
    exact List.getElem?_idxOf hb

theorem lookup_openFrame_of_mem {b : BlockId} (hb : b ∈ g.order) :
    (openFrame function g entry).blocks.lookup b = some (placeIn g e function.blocks.length b) :=
  (lookup_openFrame hg he hentry function).mpr ⟨hb, rfl⟩

theorem blocks_openFrame :
    (openFrame function g entry).function.blocks =
      function.blocks ++ (prologue function.blocks.length g entry ++
        (layout g e).map (fun b => { name := g.blockName b })) := by
  rw [openFrame_eq hg he hentry]
  have hname : ∀ b ∈ placedBlocks g entry, b.name = g.blockName b.id := by
    intro b hb
    have hblock : g.block? b.id = some b := by
      rcases List.mem_cons.mp hb with rfl | hb
      · rw [(hg.block_of_mem he hentry).id_eq]
        exact hentry
      · obtain ⟨x, hx, hxb⟩ := Graph.mem_blocks.mp (List.mem_filter.mp hb).1
        rw [(hg.block_of_mem hx hxb).id_eq]
        exact hxb
    simp [Graph.blockName, hblock]
  have hplaced : layout g e = (placedBlocks g entry).map (·.id) :=
    (map_placedBlocks hg he hentry).symm
  rw [hplaced, List.map_map]
  show function.blocks ++ (_ ++ _) = _
  congr 2
  apply List.map_congr_left
  intro b hb
  rw [hname b hb]
  rfl

/-- Before anything is lowered, the places of the blocks are empty. -/
theorem getElem?_openFrame {b : BlockId} (hb : b ∈ g.order) :
    (openFrame function g entry).function.blocks[placeIn g e function.blocks.length b]? =
      some { name := g.blockName b } := by
  have hle : (prologue function.blocks.length g entry).length ≤
      (front g e).length + (layout g e).idxOf b := by
    rw [length_prologue hg he hentry]
    omega
  unfold placeIn
  rw [blocks_openFrame hg he hentry, Nat.add_assoc, List.getElem?_append_right (by omega),
    Nat.add_sub_cancel_left, List.getElem?_append_right hle, length_prologue hg he hentry,
    Nat.add_sub_cancel_left, List.getElem?_map, List.getElem?_idxOf ((mem_layout he).mpr hb)]
  rfl

/-- What is in front of the blocks is finished when the frame is opened. -/
theorem getElem?_front (hfront : front g e ≠ []) :
    (openFrame function g entry).function.blocks[function.blocks.length]? =
      some { name := prologueName
             term := some (.br (some (placeIn g e function.blocks.length e))) } := by
  rw [placeIn_entry, blocks_openFrame hg he hentry, List.getElem?_append_right (Nat.le_refl _),
    Nat.sub_self]
  unfold front at hfront ⊢
  unfold prologue
  rw [(hg.block_of_mem he hentry).id_eq]
  split at hfront
  · exact absurd rfl hfront
  · rename_i hpreds
    rw [if_neg hpreds, if_neg hpreds]
    rfl

end Shape

theorem lowerOrder?_placed {g : Graph} (hg : g.WellFormed) {e : BlockId} (he : e ∈ g.order)
    {entry : Block} (hentry : g.block? e = some entry) {order : List (Option Block)}
    (horder : g.lowerOrder? e = some order) (function : Llvm.Function) :
    ∃ bs : List Block, order = bs.map some ∧ bs.Perm g.blocks ∧
      ∀ b ∈ bs, ((openFrame function g entry).blocks.lookup b.id).isSome := by
  obtain ⟨bs, hbs, hperm⟩ := hg.lowerOrder? he horder
  refine ⟨bs, hbs, hperm, ?_⟩
  intro b hb
  obtain ⟨x, hx, hxb⟩ := Graph.mem_blocks.mp (hperm.mem_iff.mp hb)
  rw [(hg.block_of_mem hx hxb).id_eq, lookup_openFrame_of_mem hg he hentry function hx]
  rfl

/-- A well-formed graph is lowered instruction by instruction. -/
theorem lowerGraph_eq_ok {s s' : Symbols} {place : Nat} {g : Graph} (hg : g.WellFormed) :
    lowerGraph s place g = .ok s' ↔
      ∃ function e entry bs last, LoweredBy s s' place g function e entry bs last := by
  obtain ⟨e, he, hge⟩ := hg.entry
  constructor
  · intro h
    obtain ⟨e', entry, function, order, s₁, f, hge', hentry, hfun, horder, hblocks, rfl⟩ :=
      lowerGraph_ok h
    rw [hge] at hge'
    cases hge'
    obtain ⟨bs, rfl, -, hplaced⟩ := lowerOrder?_placed hg he hentry horder function
    exact ⟨function, e, entry, bs, (s₁, f), ⟨hge, hentry⟩, hfun, horder,
      (lowerBlocks_eq_ok hplaced).mp hblocks, rfl⟩
  · rintro ⟨function, e', entry, bs, last, ⟨hge', hentry⟩, hfun, horder, hrun, rfl⟩
    rw [hge] at hge'
    cases hge'
    obtain ⟨bs', hbs', -, hplaced⟩ := lowerOrder?_placed hg he hentry horder function
    obtain rfl : bs = bs' := List.map_injective_iff.mpr (Option.some_injective _) hbs'
    unfold lowerGraph
    rw [Graph.entryBlock?, hge, Option.bind_some, hentry, hfun]
    simp only [horder, (lowerBlocks_eq_ok hplaced).mpr hrun]

/-! ## What lowering leaves -/

/-- When one step ends the block at a place, and no step after it goes there, the block is
ended once. -/
theorem endsOnce_of_steps {start last : Symbols × Frame} {before after : List (Nat × Instr)}
    {k : Nat} {i : Instr} (hrun : (before ++ (k, i) :: after).foldlM lowerStep start = .ok last)
    (hfits : ∀ w ∈ before ++ (k, i) :: after, w.2.Fits) (hi : i.isTerminator = true)
    (hopen : ∀ w ∈ before, w.1 = k → w.2.isTerminator = false) (hother : ∀ w ∈ after, w.1 ≠ k)
    {b : Llvm.Block} (hb : start.2.function.blocks[k]? = some b) (hnone : b.term = none) :
    ∃ block t, last.2.function.blocks[k]? = some block ∧ block.term = some t ∧
      t.targets = i.targets.map (fun x => start.2.blocks.lookup x) ∧
      EndsOnce start (before ++ (k, i) :: after) k block := by
  have hbefore : ∀ part, part <+: before → ∃ r b₁, part.foldlM lowerStep start = .ok r ∧
      r.2.function.blocks[k]? = some b₁ ∧ b₁.term = none := by
    rintro part ⟨rest, rfl⟩
    rw [List.append_assoc, List.foldlM_append] at hrun
    obtain ⟨r, hr, -⟩ := bind_eq_ok.mp hrun
    have hterm := term_of_steps (fun w hw => hfits w (by simp [hw])) hr
      (fun w hw => hopen w (by simp [hw]))
    rw [hb, Option.map_some, hnone] at hterm
    obtain ⟨b₁, hb₁, hb₁n⟩ := Option.map_eq_some_iff.mp hterm
    exact ⟨r, b₁, hr, hb₁, hb₁n⟩
  obtain ⟨r, b₁, hr, hb₁, -⟩ := hbefore before List.prefix_rfl
  rw [List.foldlM_append, hr] at hrun
  have hrest : ((k, i) :: after).foldlM lowerStep r = .ok last := hrun
  obtain ⟨r₁, hone, hafter⟩ := bind_eq_ok.mp hrest
  obtain ⟨block, t, hblock, hterm, htargets⟩ :=
    term_of_step (hfits (k, i) (by simp)) hi hone hb₁
  have hlater : ∀ part, part <+: after → ∃ r', part.foldlM lowerStep r₁ = .ok r' ∧
      r'.2.function.blocks[k]? = some block := by
    rintro part ⟨rest, rfl⟩
    rw [List.foldlM_append] at hafter
    obtain ⟨r', hr', -⟩ := bind_eq_ok.mp hafter
    refine ⟨r', hr', ?_⟩
    rw [(wrote_of_steps hr').other k fun w hw => hother w (by simp [hw])]
    exact hblock
  refine ⟨block, t, ?_, hterm, ?_, before, i, after, rfl, hbefore, ?_⟩
  · obtain ⟨r', hr', hkept⟩ := hlater after List.prefix_rfl
    rw [hafter] at hr'
    cases hr'
    exact hkept
  · rw [htargets, (wrote_of_steps hr).blocks]
  · intro part hpart
    obtain ⟨r', hr', hkept⟩ := hlater part hpart
    refine ⟨r', ?_, hkept⟩
    rw [List.foldlM_append, hr]
    show ((k, i) :: part).foldlM lowerStep r = _
    exact bind_eq_ok.mpr ⟨r₁, hone, hr'⟩

section LoweredBy

variable {s s' : Symbols} {place : Nat} {g : Graph} {function : Llvm.Function} {e : BlockId}
  {entry : Block} {bs : List Block} {last : Symbols × Frame}

/-- The function that a graph was lowered into has the head that it was declared with. -/
theorem LoweredBy.head (h : LoweredBy s s' place g function e entry bs last) :
    last.2.function.name = function.name ∧ last.2.function.params = function.params := by
  have hwrote := wrote_of_steps h.run
  obtain ⟨-, hname, hparams⟩ := openFrame_head function g entry
  exact ⟨hwrote.name.trans hname, hwrote.params.trans hparams⟩

variable (hg : g.WellFormed) (h : LoweredBy s s' place g function e entry bs last)

include hg h

theorem LoweredBy.mem_entry : e ∈ g.order := by
  obtain ⟨e', he', hge⟩ := hg.entry
  rw [h.enters.1] at hge
  cases hge
  exact he'

theorem LoweredBy.perm : bs.Perm g.blocks := by
  obtain ⟨bs', hbs', hperm⟩ := hg.lowerOrder? (h.mem_entry hg) h.order
  obtain rfl : bs = bs' := List.map_injective_iff.mpr (Option.some_injective _) hbs'
  exact hperm

/-- The instructions of a block are lowered together. No other goes into its place. -/
theorem LoweredBy.split {b : BlockId} {block : Block} (hb : b ∈ g.order)
    (hblock : g.block? b = some block) :
    ∃ before after, workOf (openFrame function g entry).blocks bs =
        before ++ (block.code.map (placeIn g e function.blocks.length b, ·) ++ after) ∧
      ∀ w ∈ before ++ after, w.1 ≠ placeIn g e function.blocks.length b := by
  have he := h.mem_entry hg
  have hperm := h.perm hg
  have hplace : ∀ x ∈ g.order, _ := fun x hx => lookup_openFrame_of_mem hg he h.enters.2 function hx
  have hmem : block ∈ bs := hperm.mem_iff.mpr (Graph.mem_blocks.mpr ⟨b, hb, hblock⟩)
  have hid := (hg.block_of_mem hb hblock).id_eq
  have hnodup : (bs.map (·.id)).Nodup := by
    rw [(hperm.map (·.id)).nodup_iff, hg.blocks_ids]
    exact hg.nodup
  generalize (openFrame function g entry).blocks = places at *
  obtain ⟨bs₁, bs₂, rfl⟩ := List.append_of_mem hmem
  refine ⟨workOf places bs₁, workOf places bs₂, ?_, ?_⟩
  · simp [workOf, hid, hplace b hb]
  · intro w hw heq
    have happend : workOf places bs₁ ++ workOf places bs₂ = workOf places (bs₁ ++ bs₂) := by
      simp [workOf]
    rw [happend] at hw
    obtain ⟨b', hb', hk, -⟩ := mem_workOf.mp hw
    have hin : b' ∈ bs₁ ++ block :: bs₂ :=
      List.perm_middle.symm.mem_iff.mp (List.mem_cons_of_mem block hb')
    obtain ⟨x, hx, hxb⟩ := Graph.mem_blocks.mp (hperm.mem_iff.mp hin)
    have hxid := (hg.block_of_mem hx hxb).id_eq
    rw [hxid, hplace x hx, Option.getD_some, heq] at hk
    -- then the other block has the same number, which comes once only
    have hsame := placeIn_inj he _ hb hk
    rw [((List.perm_middle (a := block)).map Block.id).nodup_iff, List.map_cons,
      List.nodup_cons] at hnodup
    exact hnodup.1 (List.mem_map.mpr ⟨b', hb', by rw [hid, hxid, hsame]⟩)

theorem LoweredBy.fits : ∀ w ∈ workOf (openFrame function g entry).blocks bs, w.2.Fits := by
  intro w hw
  obtain ⟨b, hb, -, hi⟩ := mem_workOf.mp hw
  obtain ⟨x, hx, hxb⟩ := Graph.mem_blocks.mp ((h.perm hg).mem_iff.mp hb)
  exact (hg.block_of_mem hx hxb).fits _ hi

/-- Each block is ended once, by its terminator, and leads to the places of its successors. -/
theorem LoweredBy.ends {b : BlockId} (hb : b ∈ g.order) :
    ∃ block t,
      last.2.function.blocks[placeIn g e function.blocks.length b]? = some block ∧
      block.term = some t ∧
      t.targets = (g.successors b).map (fun x => some (placeIn g e function.blocks.length x)) ∧
      EndsOnce (s, openFrame function g entry) (workOf (openFrame function g entry).blocks bs)
        (placeIn g e function.blocks.length b) block := by
  have he := h.mem_entry hg
  obtain ⟨block, hblock, hfits⟩ := hg.block b hb
  obtain ⟨body, i, hcode, hi, hbody⟩ := hfits.ends
  obtain ⟨before, after, hwork, hother⟩ := h.split hg hb hblock
  have hsplit : workOf (openFrame function g entry).blocks bs =
      before ++ body.map (placeIn g e function.blocks.length b, ·) ++
        (placeIn g e function.blocks.length b, i) :: after := by
    rw [hwork, hcode]
    simp
  have hopen : ∀ w ∈ before ++ body.map (placeIn g e function.blocks.length b, ·),
      w.1 = placeIn g e function.blocks.length b → w.2.isTerminator = false := by
    intro w hw hwk
    rcases List.mem_append.mp hw with hw | hw
    · exact absurd hwk (hother w (List.mem_append_left after hw))
    · obtain ⟨j, hj, rfl⟩ := List.mem_map.mp hw
      exact hbody j hj
  obtain ⟨block', t, hblock', hterm, htargets, honce⟩ := endsOnce_of_steps
    (hsplit ▸ h.run) (hsplit ▸ h.fits hg) hi hopen
    (fun w hw => hother w (List.mem_append_right before hw))
    (getElem?_openFrame hg he h.enters.2 function hb) rfl
  refine ⟨block', t, hblock', hterm, ?_, hsplit ▸ honce⟩
  have hsucc : g.successors b = i.targets := by
    rw [Graph.successors_eq hblock]
    unfold Block.targets Block.terminator?
    rw [hcode, List.getLast?_concat, Option.filter_some, if_pos hi]
    rfl
  rw [htargets, hsucc]
  apply List.map_congr_left
  intro x hx
  exact lookup_openFrame_of_mem hg he h.enters.2 function (hfits.inside i (by simp [hcode]) x hx)

/-- A step goes into the place of a block of the graph. -/
theorem LoweredBy.place_of_mem {w : Nat × Instr}
    (hw : w ∈ workOf (openFrame function g entry).blocks bs) :
    ∃ b ∈ g.order, w.1 = placeIn g e function.blocks.length b := by
  obtain ⟨b, hb, hk, -⟩ := mem_workOf.mp hw
  obtain ⟨x, hx, hxb⟩ := Graph.mem_blocks.mp ((h.perm hg).mem_iff.mp hb)
  rw [(hg.block_of_mem hx hxb).id_eq,
    lookup_openFrame_of_mem hg (h.mem_entry hg) h.enters.2 function hx, Option.getD_some] at hk
  exact ⟨x, hx, hk⟩

theorem LoweredBy.names :
    last.2.function.blocks.map (·.name) =
      function.blocks.map (·.name) ++ (front g e ++ (layout g e).map g.blockName) := by
  have he := h.mem_entry hg
  rw [(wrote_of_steps h.run).names, blocks_openFrame hg he h.enters.2, List.map_append,
    List.map_append, map_name_prologue hg he h.enters.2, List.map_map]
  rfl

/-- The blocks that were there before are as they were. -/
theorem LoweredBy.take : last.2.function.blocks.take function.blocks.length = function.blocks := by
  have he := h.mem_entry hg
  apply List.ext_getElem?
  intro j
  rw [List.getElem?_take]
  split
  · rename_i hj
    rw [(wrote_of_steps h.run).other j, blocks_openFrame hg he h.enters.2,
      List.getElem?_append_left hj]
    intro w hw hwj
    obtain ⟨b, -, hk⟩ := h.place_of_mem hg hw
    unfold placeIn at hk
    omega
  · rename_i hj
    rw [List.getElem?_eq_none (by omega)]

theorem LoweredBy.jump (hfront : front g e ≠ []) :
    last.2.function.blocks[function.blocks.length]? =
      some { name := prologueName
             term := some (.br (some (placeIn g e function.blocks.length e))) } := by
  rw [(wrote_of_steps h.run).other function.blocks.length]
  · exact getElem?_front hg (h.mem_entry hg) h.enters.2 function hfront
  · intro w hw hk
    obtain ⟨b, -, hk'⟩ := h.place_of_mem hg hw
    have := List.length_pos_iff.mpr hfront
    unfold placeIn at hk'
    omega

/-- After the blocks that were there before, a block is the one in front or has a block of the
graph. -/
theorem LoweredBy.cases_of_mem {block : Llvm.Block}
    (hmem : block ∈ last.2.function.blocks.drop function.blocks.length) :
    (front g e ≠ [] ∧ last.2.function.blocks[function.blocks.length]? = some block) ∨
      ∃ b ∈ g.order,
        last.2.function.blocks[placeIn g e function.blocks.length b]? = some block := by
  have he := h.mem_entry hg
  obtain ⟨m, hm⟩ := List.mem_iff_getElem?.mp hmem
  rw [List.getElem?_drop] at hm
  have hlength : last.2.function.blocks.length =
      function.blocks.length + ((front g e).length + (layout g e).length) := by
    have := congrArg List.length (h.names hg)
    simpa using this
  have hlt := (List.getElem?_eq_some_iff.mp hm).1
  by_cases hf : m < (front g e).length
  · left
    have hone : (front g e).length ≤ 1 := by
      unfold front
      split <;> simp
    obtain rfl : m = 0 := by omega
    exact ⟨List.length_pos_iff.mp (by omega), hm⟩
  · right
    have hj : m - (front g e).length < (layout g e).length := by omega
    refine ⟨(layout g e)[m - (front g e).length], (mem_layout he).mp (List.getElem_mem hj), ?_⟩
    unfold placeIn
    rw [(nodup_layout hg e).idxOf_getElem]
    have hplace : function.blocks.length + (front g e).length + (m - (front g e).length) =
        function.blocks.length + m := by omega
    rw [hplace]
    exact hm

theorem LoweredBy.mirrors : Mirrors g e function.blocks.length last.2.function.blocks := by
  have he := h.mem_entry hg
  refine ⟨?_, ?_, h.jump hg, ?_⟩
  · rw [List.map_drop, h.names hg, List.drop_left' (by simp)]
  · intro b hb
    obtain ⟨block, t, hblock, hterm, htargets, -⟩ := h.ends hg hb
    refine ⟨block, t, hblock, ?_, hterm, htargets⟩
    have hname := congrArg (·[placeIn g e function.blocks.length b]?) (wrote_of_steps h.run).names
    simp only [List.getElem?_map, hblock, getElem?_openFrame hg he h.enters.2 function hb,
      Option.map_some] at hname
    exact Option.some.inj hname
  · intro block hmem t ht k hk
    rcases h.cases_of_mem hg hmem with ⟨hfront, hblock⟩ | ⟨b, hb, hblock⟩
    · rw [h.jump hg hfront] at hblock
      cases hblock
      cases ht
      have hk : some k = some (placeIn g e function.blocks.length e) := by
        simpa [Llvm.Term.targets] using hk
      have := List.length_pos_iff.mpr hfront
      rw [Option.some.inj hk, placeIn_entry]
      omega
    · obtain ⟨block', t', hblock', hterm, htargets, -⟩ := h.ends hg hb
      rw [hblock] at hblock'
      cases hblock'
      rw [ht] at hterm
      cases hterm
      rw [htargets] at hk
      obtain ⟨x, hx, hxk⟩ := List.mem_map.mp hk
      cases hxk
      exact base_lt_placeIn e _ hb hx

end LoweredBy

/-- A graph that passes the check and is lowered gives a function the blocks of its own: the
entry first, with a block in front if the entry is branched to, and then the others in order.
Each block is ended once, after all that goes into it, and branches as in the graph. -/
theorem the_lowered_blocks_are_those_of_the_graph {s s' : Symbols} {place : Nat} {g : Graph}
    (hcheck : g.fault? = none) (h : lowerGraph s place g = .ok s') :
    ∃ function e entry bs last, LoweredBy s s' place g function e entry bs last ∧
      s'.functions[place]? = some last.2.function ∧
      last.2.function.name = function.name ∧ last.2.function.params = function.params ∧
      last.2.function.blocks.take function.blocks.length = function.blocks ∧
      Mirrors g e function.blocks.length last.2.function.blocks ∧
      ∀ b ∈ g.order, ∀ block,
        last.2.function.blocks[placeIn g e function.blocks.length b]? = some block →
        EndsOnce (s, openFrame function g entry) (workOf (openFrame function g entry).blocks bs)
          (placeIn g e function.blocks.length b) block := by
  have hg := Graph.fault?_eq_none.mp hcheck
  obtain ⟨function, e, entry, bs, last, hby⟩ := (lowerGraph_eq_ok hg).mp h
  refine ⟨function, e, entry, bs, last, hby, ?_, hby.head.1, hby.head.2, hby.take hg,
    hby.mirrors hg, ?_⟩
  · rw [hby.result]
    apply List.getElem?_set_self
    have hlt := (List.getElem?_eq_some_iff.mp hby.declared).1
    have hle : s.functions.length ≤ last.1.functions.length :=
      (wrote_of_steps hby.run).grows.functions.length_le
    omega
  · intro b hb block hblock
    obtain ⟨block', t, hblock', -, -, honce⟩ := hby.ends hg hb
    rw [hblock] at hblock'
    cases hblock'
    exact honce

/-- A loop through the entry, which a block that no path comes to branches to as well. -/
def countDown : Graph := Outline.graph {
  name := "down"
  blocks := [
    ("out", [.ret []]),
    ("head", [.arg 0, .const 1, .binary .sub 1 2, .brif 3 1 0]),
    ("dead", [.br 1])]
  entry := some 1 }

theorem the_lowered_blocks_of_a_loop_are_its_own :
    countDown.fault? = none ∧
      ∃ s' f, lowerGraph (declared [{ name := "down", params := 1 }]) 0 countDown = .ok s' ∧
        s'.functions[0]? = some f ∧ Mirrors countDown 1 0 f.blocks ∧
        f.blocks.map (·.name) = [".entry", "head", "out", "dead"] := by
  have hcheck : countDown.fault? = none := by decide +kernel
  obtain ⟨s', hs'⟩ : ∃ s', lowerGraph (declared [{ name := "down", params := 1 }]) 0 countDown =
      .ok s' := ⟨_, rfl⟩
  obtain ⟨function, e, entry, bs, last, hby, hf, -, -, -, hmirrors, -⟩ :=
    the_lowered_blocks_are_those_of_the_graph hcheck hs'
  obtain rfl : 1 = e := Option.some.inj hby.enters.1
  have hfunction : function = { name := "down", params := 1 } := by
    have := hby.declared
    simpa [declared] using this.symm
  subst hfunction
  refine ⟨hcheck, s', _, hs', hf, hmirrors, ?_⟩
  have hnames := hmirrors.names
  simpa using hnames.trans (by decide +kernel)

end FlowGraph.Lower

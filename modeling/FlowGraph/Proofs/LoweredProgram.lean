import FlowGraph.Proofs.DepthFirst
import FlowGraph.Proofs.Lowering

/-!
Lowering a whole program. Each block of a function has its place before any is
lowered, the order of lowering goes through each block once, and each function
is lowered into the place that calls of its name lead to. So a run of the
module follows each run of the program.
-/

namespace FlowGraph

namespace Lower

/-! ## The places of blocks -/

theorem Frame.foldl_addBlock (bs : List Block) (f : Frame) :
    bs.foldl Frame.addBlock f =
      { f with
        function := { f.function with
          blocks := f.function.blocks ++ bs.map (fun b => { name := b.name }) }
        blocks := ((bs.map (·.id)).zipIdx f.function.blocks.length).reverse ++ f.blocks } := by
  induction bs generalizing f with
  | nil => simp
  | cons b bs ih =>
    rw [List.foldl_cons, ih]
    simp [Frame.addBlock, Llvm.Function.addBlock]

/-- Opening a frame adds blocks to the function, and knows no value yet. -/
theorem openFrame_head (function : Llvm.Function) (g : Graph) (entry : Block) :
    (openFrame function g entry).values = [] ∧
      (openFrame function g entry).function.name = function.name ∧
      (openFrame function g entry).function.params = function.params := by
  unfold openFrame
  dsimp only
  rw [Frame.foldl_addBlock]
  by_cases hfront : (!(g.predecessors entry.id).isEmpty) = true
  · simp [hfront, Frame.addBlock, Llvm.Function.addBlock, Llvm.Function.terminate]
  · simp [hfront, Frame.addBlock, Llvm.Function.addBlock]

/-- A frame with its blocks opened: each block has an empty place of its own, and the
first place is that of the entry, or a jump to it. -/
structure Opened (f : Frame) (g : Graph) (e : BlockId) : Prop where
  values : f.values = []
  placed : ∀ b, (f.blocks.lookup b).isSome ↔ b ∈ g.order
  apart : ∀ x y k, f.blocks.lookup x = some k → f.blocks.lookup y = some k → x = y
  empty : ∀ b k, f.blocks.lookup b = some k →
    ∃ name, f.function.blocks[k]? = some { name := name }
  entry : ∃ k, f.blocks.lookup e = some k ∧ (k = 0 ∨
    (∀ b, f.blocks.lookup b ≠ some 0) ∧
      f.function.blocks[0]? = some { name := prologueName, term := some (.br (some k)) })

/-- The blocks in the order of their places. -/
def placedBlocks (g : Graph) (entry : Block) : List Block :=
  entry :: g.blocks.filter (fun b => b.id ≠ entry.id)

/-- What stands before the blocks, after so many others: a jump to the entry, if a block
branches to it. -/
def prologue (base : Nat) (g : Graph) (entry : Block) : List Llvm.Block :=
  if (g.predecessors entry.id).isEmpty then []
  else [{ name := prologueName, term := some (.br (some (base + 1))) }]

section Places

variable {g : Graph} (hg : g.WellFormed) {e : BlockId} (he : e ∈ g.order) {entry : Block}
  (hentry : g.block? e = some entry)

include hg he hentry

theorem map_placedBlocks :
    (placedBlocks g entry).map (·.id) = e :: g.order.filter (fun x => x ≠ e) := by
  have hid := (hg.block_of_mem he hentry).id_eq
  unfold placedBlocks
  rw [List.map_cons, hid, hg.filter_blocks (fun x => x ≠ e),
    hg.map_id_filterMap fun x hx => (List.mem_filter.mp hx).1]

theorem nodup_placedBlocks : ((placedBlocks g entry).map (·.id)).Nodup := by
  rw [map_placedBlocks hg he hentry]
  refine List.nodup_cons.mpr ⟨by simp, hg.nodup.filter _⟩

theorem mem_placedBlocks (x : BlockId) :
    x ∈ (placedBlocks g entry).map (·.id) ↔ x ∈ g.order := by
  rw [map_placedBlocks hg he hentry, List.mem_cons, List.mem_filter]
  by_cases hx : x = e
  · simp [hx, he]
  · simp [hx]

theorem openFrame_eq (function : Llvm.Function) :
    openFrame function g entry =
      { function := { function with
          blocks := function.blocks ++ (prologue function.blocks.length g entry ++
            (placedBlocks g entry).map (fun b => { name := b.name })) }
        blocks := (((placedBlocks g entry).map (·.id)).zipIdx
          (function.blocks.length + (prologue function.blocks.length g entry).length)).reverse } := by
  have hfold : ∀ f : Frame, (g.blocks.filter (fun b => b.id ≠ entry.id)).foldl Frame.addBlock
      (f.addBlock entry) = (placedBlocks g entry).foldl Frame.addBlock f := fun _ => rfl
  unfold openFrame prologue
  dsimp only
  rw [hfold, Frame.foldl_addBlock]
  cases (g.predecessors entry.id).isEmpty with
  | true => simp
  | false =>
    have hlookup : (((placedBlocks g entry).map (·.id)).zipIdx
        (function.blocks.length + 1)).reverse.lookup entry.id =
          some (function.blocks.length + 1) := by
      rw [lookup_reverse_zipIdx (nodup_placedBlocks hg he hentry), Nat.sub_self]
      exact ⟨Nat.le_refl _, rfl⟩
    simp [Llvm.Function.addBlock, Llvm.Function.terminate, hlookup, modify_append_cons]

theorem openFrame_opened {function : Llvm.Function} (hempty : function.blocks = []) :
    Opened (openFrame function g entry) g e := by
  rw [openFrame_eq hg he hentry, hempty]
  simp only [List.length_nil, Nat.zero_add, List.nil_append]
  have hlookup : ∀ b k n, (((placedBlocks g entry).map (·.id)).zipIdx n).reverse.lookup b = some k ↔
      n ≤ k ∧ ((placedBlocks g entry).map (·.id))[k - n]? = some b :=
    fun b k n => lookup_reverse_zipIdx (nodup_placedBlocks hg he hentry)
  refine ⟨rfl, ?_, ?_, ?_, ?_⟩
  · intro b
    rw [← mem_placedBlocks hg he hentry b, Option.isSome_iff_exists, List.mem_iff_getElem?]
    constructor
    · rintro ⟨k, hk⟩
      exact ⟨_, ((hlookup b k _).mp hk).2⟩
    · rintro ⟨j, hj⟩
      refine ⟨(prologue 0 g entry).length + j, (hlookup b _ _).mpr ⟨Nat.le_add_right _ _, ?_⟩⟩
      rw [Nat.add_sub_cancel_left]
      exact hj
  · intro x y k hx hy
    have hx := ((hlookup _ _ _).mp hx).2
    rw [((hlookup _ _ _).mp hy).2] at hx
    exact (Option.some.inj hx).symm
  · intro b k hk
    obtain ⟨hle, hk⟩ := (hlookup _ _ _).mp hk
    rw [List.getElem?_map, Option.map_eq_some_iff] at hk
    obtain ⟨block, hblock, -⟩ := hk
    refine ⟨block.name, ?_⟩
    show (prologue 0 g entry ++ _)[k]? = _
    rw [List.getElem?_append_right hle, List.getElem?_map, hblock]
    rfl
  · refine ⟨(prologue 0 g entry).length, (hlookup _ _ _).mpr ⟨Nat.le_refl _, ?_⟩, ?_⟩
    · rw [map_placedBlocks hg he hentry, Nat.sub_self]
      rfl
    · unfold prologue
      cases (g.predecessors entry.id).isEmpty with
      | true => exact .inl rfl
      | false =>
        refine .inr ⟨?_, rfl⟩
        intro b hb
        exact absurd ((hlookup b 0 1).mp hb).1 (by decide)

end Places

/-! ## Functions -/

/-- What a graph needs to be lowered as it means: it is well formed, its instructions
have numbers of their own, and operations on two numbers have two operands. -/
structure Sane (g : Graph) : Prop where
  wellFormed : g.WellFormed
  nodup : (g.instrs.map (·.id)).Nodup
  paired : ∀ i ∈ g.instrs, Paired i

/-- The function is the lowered form of the graph, for all who know the callees. -/
def Done (s : Symbols) (g : Graph) (f : Llvm.Function) : Prop :=
  ∀ c, Knows c s → ∃ c', c'.callee = c.callee ∧ c'.params = c.params ∧ Lowered c' g f

theorem Done.of_keeps {s s' : Symbols} {g : Graph} {f : Llvm.Function} (h : Done s g f)
    (hs : s.Keeps s') : Done s' g f :=
  fun c hc => h c (hc.of_keeps hs)

theorem Opened.waiting {f : Frame} {g : Graph} {e : BlockId} (h : Opened f g e) (hg : Sane g)
    {bs : List Block} (hbs : bs.Perm g.blocks) : Waiting f bs := by
  have hmem : ∀ b ∈ bs, ∃ x ∈ g.order, g.block? x = some b ∧ b.FitsIn x g.order := by
    intro b hb
    obtain ⟨x, hx, hb⟩ := Graph.mem_blocks.mp (hbs.mem_iff.mp hb)
    exact ⟨x, hx, hb, hg.wellFormed.block_of_mem hx hb⟩
  refine ⟨?_, ?_, ?_, h.apart, fun b _ k hk => h.empty b.id k hk⟩
  · rw [(hbs.map (·.id)).nodup_iff, hg.wellFormed.blocks_ids]
    exact hg.wellFormed.nodup
  · intro b hb
    obtain ⟨x, -, -, hfits⟩ := hmem b hb
    exact hfits.ends
  · intro b hb i hi
    obtain ⟨x, hx, hb, hfits⟩ := hmem b hb
    refine ⟨hfits.fits i hi, hg.paired i (Graph.mem_instrs.mpr ⟨x, hx, b, hb, hi⟩), ?_⟩
    exact fun t ht => (h.placed t).mpr (hfits.inside i hi t ht)

/-- The names that the last frame gives, and the callees of others. -/
def finalNames (c : Names) (fin : Frame) : Names :=
  { c with value := fun v => fin.values.lookup v, place := fun b => fin.blocks.lookup b }

/-- No value is named twice, since no two instructions have the same number. -/
theorem Opened.finishes {f fin : Frame} {g : Graph} {e : BlockId} (h : Opened f g e)
    (hg : Sane g) {bs : List Block} (hbs : bs.Perm g.blocks)
    (hfg : f.Grows fin ((bs.flatMap (·.code)).map (·.id))) (c : Names) :
    Finishes (finalNames c fin) fin := by
  refine ⟨fun _ => rfl, fun _ => rfl, ?_⟩
  obtain ⟨new, hnew, hsub, -⟩ := hfg.values
  rw [hnew, h.values, List.append_nil, ← List.nodup_reverse]
  refine hsub.nodup ?_
  rw [((hbs.flatMap_right (·.code)).map (·.id)).nodup_iff]
  exact hg.nodup

theorem lowerGraph_ok {s s' : Symbols} {place : Nat} {g : Graph}
    (h : lowerGraph s place g = .ok s') :
    ∃ e entry function order s₁ f, g.entry = some e ∧ g.block? e = some entry ∧
      s.functions[place]? = some function ∧ g.lowerOrder? e = some order ∧
      lowerBlocks order (s, openFrame function g entry) = .ok (s₁, f) ∧
      s' = { s₁ with functions := s₁.functions.set place f.function } := by
  unfold lowerGraph at h
  split at h
  · rename_i entry e function hentry he hfunction
    split at h
    · cases h
    · rename_i order horder
      split at h
      · cases h
      · rename_i s₁ f hblocks
        cases h
        rw [Graph.entryBlock?, he, Option.bind_some] at hentry
        exact ⟨e, entry, function, order, s₁, f, he, hentry, hfunction, horder, hblocks, rfl⟩
  · cases h

/-- A function is lowered into its place, and nothing else changes but for new declarations. -/
theorem lowerGraph_spec {s s' : Symbols} {place count : Nat} {g : Graph} (hg : Sane g)
    (hs : s.Sound count) {function : Llvm.Function} (hfun : s.functions[place]? = some function)
    (hempty : function.blocks = []) (h : lowerGraph s place g = .ok s') :
    ∃ s₁ f, s.Grows s₁ ∧ s₁.Sound count ∧
      s' = { s₁ with functions := s₁.functions.set place f } ∧
      f.name = function.name ∧ f.params = function.params ∧ Done s₁ g f := by
  obtain ⟨e, entry, function', order, s₁, f, he, hentry, hfun', horder, hblocks, rfl⟩ :=
    lowerGraph_ok h
  rw [hfun] at hfun'
  cases hfun'
  have heorder : e ∈ g.order := by
    obtain ⟨e', he', heq⟩ := hg.wellFormed.entry
    rw [he] at heq
    cases heq
    exact he'
  obtain ⟨bs, rfl, hbs⟩ := hg.wellFormed.lowerOrder? heorder horder
  -- the places are fixed once the frame is open, and lowering blocks moves none
  have hopen := openFrame_opened hg.wellFormed heorder hentry hempty
  have hhead := openFrame_eq hg.wellFormed heorder hentry function
  obtain ⟨hgrows, hsound, hfg, hkept, hall⟩ :=
    lowerBlocks_spec bs hs (hopen.waiting hg hbs) hblocks
  refine ⟨s₁, f.function, hgrows, hsound, rfl, ?_, ?_, ?_⟩
  · rw [hfg.name, hhead]
  · rw [hfg.params, hhead]
  · intro c hc
    have hplaces : ∀ b, (finalNames c f).place b = (openFrame function g entry).blocks.lookup b :=
      fun b => by rw [← hfg.blocks]; rfl
    refine ⟨finalNames c f, rfl, rfl, ?_, ?_, ?_, ?_, ?_⟩
    · obtain ⟨k, hk, hstart⟩ := hopen.entry
      have hplace : f.blocks.lookup e = some k := hfg.blocks ▸ hk
      refine ⟨e, k, entry, he, hentry, hplace, hstart.imp_right ?_⟩
      rintro ⟨hnone, hfirst⟩
      rw [← hkept 0 fun b _ => hnone b.id] at hfirst
      exact ⟨_, hfirst, rfl, rfl⟩
    · intro b k hk
      have hk : (openFrame function g entry).blocks.lookup b = some k := hfg.blocks ▸ hk
      have hb := (hopen.placed b).mp (Option.isSome_of_eq_some hk)
      obtain ⟨block, hblock, hfits⟩ := hg.wellFormed.block b hb
      have hmem := Graph.mem_blocks.mpr ⟨b, hb, hblock⟩
      obtain ⟨k', b', hk', hb', hbecomes⟩ := hall block (hbs.mem_iff.mpr hmem)
      rw [hfits.id_eq, hk] at hk'
      cases hk'
      -- no value is named yet when the frame is opened
      have hlow : (openFrame function g entry).Low := by
        intro v hv
        rw [hopen.values] at hv
        cases hv
      exact ⟨block, b', hblock, hb',
        hbecomes _ f [] (hopen.finishes hg hbs hfg c) (.refl f) ⟨hc.callee, hc.params⟩ hlow⟩
    · simp only [hplaces]
      exact hopen.placed
    · simp only [hplaces]
      exact hopen.apart
    · intro e' he'
      rw [he] at he'
      cases he'
      obtain ⟨k, hk, hstart⟩ := hopen.entry
      simp only [hplaces]
      rcases hstart with rfl | ⟨hnone, -⟩
      · exact .inl hk
      · exact .inr hnone

/-! ## Programs -/

/-- A function put in the place of its declaration. -/
theorem Symbols.keeps_set {s : Symbols} {place : Nat} {f function : Llvm.Function}
    (hfun : s.functions[place]? = some function) (hname : f.name = function.name)
    (hparams : f.params = function.params) :
    s.Keeps { s with functions := s.functions.set place f } := by
  refine ⟨rfl, ?_, fun _ _ h => h⟩
  intro k f' hf'
  by_cases hk : place = k
  · subst hk
    rw [hfun] at hf'
    cases hf'
    exact ⟨f, List.getElem?_set_self (List.getElem?_eq_some_iff.mp hfun).1, hname, hparams⟩
  · refine ⟨f', ?_, rfl, rfl⟩
    rw [List.getElem?_set_ne hk]
    exact hf'

theorem Symbols.Sound.set {s : Symbols} {place count : Nat} (hs : s.Sound count)
    (hplace : place < count) (f : Llvm.Function) :
    Symbols.Sound { s with functions := s.functions.set place f } count := by
  refine ⟨?_, hs.defined, ?_⟩
  · rw [List.length_set]
    exact hs.count_le
  · intro n k hk
    obtain ⟨hnone, hle, hf⟩ := hs.externs n k hk
    refine ⟨hnone, hle, ?_⟩
    rw [List.getElem?_set_ne (by omega)]
    exact hf

/-- What is left after the functions of a list were lowered. -/
structure LoweredAll (gs : List Graph) (s s' : Symbols) (count : Nat) : Prop where
  keeps : s.Keeps s'
  sound : s'.Sound count
  other : ∀ (k : Nat) f, (∀ g ∈ gs, s.defined.lookup g.name ≠ some k) →
    s.functions[k]? = some f → s'.functions[k]? = some f
  done : ∀ g ∈ gs, ∃ k f, s.defined.lookup g.name = some k ∧ s'.functions[k]? = some f ∧
    Done s' g f

theorem lowerAll_cons {g : Graph} {gs : List Graph} {s s' : Symbols}
    (h : lowerAll (g :: gs) s = .ok s') :
    ∃ place s₁, s.defined.lookup g.name = some place ∧ lowerGraph s place g = .ok s₁ ∧
      lowerAll gs s₁ = .ok s' := by
  unfold lowerAll at h
  split at h
  · cases h
  · rename_i place hplace
    split at h
    · cases h
    · rename_i s₁ hs₁
      exact ⟨place, s₁, hplace, hs₁, h⟩

theorem lowerAll_spec {count : Nat} (gs : List Graph) {s s' : Symbols} (hs : s.Sound count)
    (hsane : ∀ g ∈ gs, Sane g) (hnames : (gs.map (·.name)).Nodup)
    (hapart : ∀ n n' k, s.defined.lookup n = some k → s.defined.lookup n' = some k → n = n')
    (hempty : ∀ g ∈ gs, ∀ k, s.defined.lookup g.name = some k →
      ∃ f, s.functions[k]? = some f ∧ f.blocks = [])
    (h : lowerAll gs s = .ok s') : LoweredAll gs s s' count := by
  induction gs generalizing s with
  | nil =>
    cases h
    exact ⟨(Symbols.Grows.refl _).keeps, hs, fun _ _ _ hf => hf, by simp⟩
  | cons g gs ih =>
    obtain ⟨place, s₂, hplace, hone, hrest⟩ := lowerAll_cons h
    obtain ⟨function, hfun, hblocks⟩ := hempty g List.mem_cons_self place hplace
    obtain ⟨s₁, f, hgrows, hsound, rfl, hname, hparams, hdone⟩ :=
      lowerGraph_spec (hsane g List.mem_cons_self) hs hfun hblocks hone
    have hset := Symbols.keeps_set (hgrows.getElem? hfun) hname hparams
    have hkeeps := hgrows.keeps.trans hset
    obtain ⟨hnot, hnodup⟩ := List.nodup_cons.mp hnames
    -- the other functions have other places
    have hne : ∀ g' ∈ gs, s.defined.lookup g'.name ≠ some place := by
      intro g' hg' hk
      exact hnot (List.mem_map.mpr ⟨g', hg', hapart _ _ place hk hplace⟩)
    have hother : ∀ (k : Nat) f', k ≠ place → s.functions[k]? = some f' →
        (s₁.functions.set place f)[k]? = some f' := by
      intro k f' hk hf'
      rw [List.getElem?_set_ne (Ne.symm hk)]
      exact hgrows.getElem? hf'
    have hall := ih (hsound.set (hs.defined _ _ hplace) f)
      (fun g' hg' => hsane g' (List.mem_cons_of_mem g hg')) hnodup
      (by rw [hkeeps.defined]; exact hapart) ?_ hrest
    · refine ⟨hkeeps.trans hall.keeps, hall.sound, ?_, ?_⟩
      · intro k f' hk hf'
        have hkp : k ≠ place := fun he => hk g List.mem_cons_self (he ▸ hplace)
        refine hall.other k f' ?_ (hother k f' hkp hf')
        rw [hkeeps.defined]
        exact fun g' hg' => hk g' (List.mem_cons_of_mem g hg')
      · intro g' hg'
        rcases List.mem_cons.mp hg' with rfl | hg'
        · refine ⟨place, f, hplace, hall.other place f ?_ ?_, ?_⟩
          · rw [hkeeps.defined]
            exact hne
          · exact List.getElem?_set_self (List.getElem?_eq_some_iff.mp (hgrows.getElem? hfun)).1
          · exact (hdone.of_keeps hset).of_keeps hall.keeps
        · have := hall.done g' hg'
          rwa [hkeeps.defined] at this
    · intro g' hg' k hk
      rw [hkeeps.defined] at hk
      obtain ⟨f', hf', hb⟩ := hempty g' (List.mem_cons_of_mem g hg') k hk
      exact ⟨f', hother k f' (fun he => hne g' hg' (he ▸ hk)) hf', hb⟩

/-- The symbols before anything is lowered: a declaration for each function. -/
def declared (fs : List Llvm.Function) : Symbols :=
  { functions := fs, defined := (fs.zipIdx.map (fun (f, i) => (f.name, i))).reverse }

theorem lookup_declared {fs : List Llvm.Function} (h : (fs.map (·.name)).Nodup) {n : String}
    {k : Nat} : (declared fs).defined.lookup n = some k ↔ (fs.map (·.name))[k]? = some n := by
  have hzip : fs.zipIdx.map (fun (f, i) => (f.name, i)) = (fs.map (·.name)).zipIdx := by
    rw [List.zipIdx_map]
    rfl
  unfold declared
  rw [hzip, lookup_reverse_zipIdx h]
  simp

theorem declared_sound {fs : List Llvm.Function} (h : (fs.map (·.name)).Nodup) :
    (declared fs).Sound fs.length := by
  refine ⟨Nat.le_refl _, ?_, by simp [declared]⟩
  intro n k hk
  have := (List.getElem?_eq_some_iff.mp ((lookup_declared h).mp hk)).1
  simpa using this

theorem declare?_eq_some {g : Graph} {f : Llvm.Function} (h : declare? g = some f) :
    f.name = g.name ∧ (f.params : Int) = g.arity.toInt ∧ f.blocks = [] := by
  unfold declare? at h
  dsimp only at h
  split at h
  · cases h
  · rename_i hn
    cases h
    refine ⟨rfl, ?_, rfl⟩
    show ((g.arity.toInt.toNat : Nat) : Int) = _
    omega

/-- What the symbols say of callees. They name no value and no block. -/
def Symbols.names (s : Symbols) : Names where
  value _ := none
  place _ := none
  callee n := (s.defined.lookup n).or (s.externs.lookup n)
  params j := (s.functions[j]?).map (·.params)

theorem Symbols.knows_names (s : Symbols) : Knows s.names s := ⟨fun _ _ h => h, fun _ _ h => h⟩

section Program

variable {p : Program} {fs : List Llvm.Function} {s : Symbols}
  (hfs : List.Forall₂ (fun g f => declare? g = some f) p.functions fs)
  (hnames : (p.functions.map (·.name)).Nodup)

include hfs

theorem map_name_of_declare : fs.map (·.name) = p.functions.map (·.name) := by
  rw [← List.forall₂_eq_eq_eq, List.forall₂_map_left_iff, List.forall₂_map_right_iff]
  exact hfs.flip.imp fun f g hfg => (declare?_eq_some hfg).1

include hnames

/-- Functions with names of their own have declarations of their own. -/
theorem nodup_of_declare : (fs.map (·.name)).Nodup := map_name_of_declare hfs ▸ hnames

theorem lowerAll_declared (hsane : ∀ g ∈ p.functions, Sane g)
    (h : lowerAll p.functions (declared fs) = .ok s) :
    LoweredAll p.functions (declared fs) s fs.length := by
  have hnodup := nodup_of_declare hfs hnames
  refine lowerAll_spec p.functions (declared_sound hnodup) hsane hnames ?_ ?_ h
  · intro n n' k hn hn'
    rw [lookup_declared hnodup] at hn hn'
    exact Option.some.inj (hn.symm.trans hn')
  · intro g hg k hk
    rw [lookup_declared hnodup, List.getElem?_map, Option.map_eq_some_iff] at hk
    obtain ⟨f, hf, -⟩ := hk
    obtain ⟨g', -, hg'⟩ := getElem?_of_forall₂ hfs.flip hf
    exact ⟨f, hf, (declare?_eq_some hg').2.2⟩

/-- Calls lead to the functions of the program, or to declarations. -/
theorem LoweredAll.linked (h : LoweredAll p.functions (declared fs) s fs.length) :
    Linked p { source := p.path, functions := s.functions } s.names.callee := by
  constructor
  · intro name g hfind k hk
    have hname : g.name = name := by simpa using List.find?_some hfind
    obtain ⟨k', f, hk', hf, hdone⟩ := h.done g (List.mem_of_find?_eq_some hfind)
    obtain ⟨c, hcallee, hparams, hlowered⟩ := hdone s.names s.knows_names
    have hkk : s.names.callee name = some k' := by
      show (s.defined.lookup name).or _ = _
      rw [h.keeps.defined, ← hname, hk']
      rfl
    rw [hk] at hkk
    cases hkk
    exact ⟨f, c, hf, hcallee, hparams, hlowered⟩
  · intro name hfind k hk
    have hnone : s.defined.lookup name = none := by
      rw [h.keeps.defined, Option.eq_none_iff_forall_ne_some]
      intro j hj
      rw [lookup_declared (nodup_of_declare hfs hnames), map_name_of_declare hfs] at hj
      obtain ⟨g, hg, hname⟩ := List.mem_map.mp (List.mem_of_getElem? hj)
      have := List.find?_eq_none.mp hfind g hg
      exact this (by simpa using hname)
    -- so the callee is one that was declared for a call
    have hk : s.externs.lookup name = some k := by
      have hk : (s.defined.lookup name).or (s.externs.lookup name) = some k := hk
      rwa [hnone] at hk
    exact (h.sound.externs name k hk).2.2

/-- Each function is lowered in the place that it has in the program. -/
theorem LoweredAll.function (h : LoweredAll p.functions (declared fs) s fs.length) {i : Nat}
    {g : Graph} (hg : p.functions[i]? = some g) :
    ∃ f c, s.functions[i]? = some f ∧ f.name = g.name ∧ (f.params : Int) = g.arity.toInt ∧
      c.callee = s.names.callee ∧ c.params = s.names.params ∧ Lowered c g f := by
  obtain ⟨f₀, hf₀, hdeclare⟩ := getElem?_of_forall₂ hfs hg
  obtain ⟨hname₀, hparams₀, -⟩ := declare?_eq_some hdeclare
  have hi : (declared fs).defined.lookup g.name = some i := by
    rw [lookup_declared (nodup_of_declare hfs hnames), List.getElem?_map, hf₀, ← hname₀]
    rfl
  obtain ⟨k, f, hk, hf, hdone⟩ := h.done g (List.mem_of_getElem? hg)
  rw [hi] at hk
  cases hk
  -- the head of the declaration stays, so the name and the number of arguments do
  obtain ⟨f', hf', hname, hparams⟩ := h.keeps.heads i f₀ hf₀
  rw [hf] at hf'
  cases hf'
  obtain ⟨c, hcallee, hcparams, hlowered⟩ := hdone s.names s.knows_names
  refine ⟨f, c, hf, hname.trans hname₀, ?_, hcallee, hcparams, hlowered⟩
  rw [hparams]
  exact hparams₀

end Program

end Lower

/-- A lowered program: what its functions became, and what its calls lead to. -/
theorem Program.lower_spec {p : Program} {m : Llvm.Module} (hsane : ∀ g ∈ p.functions, Lower.Sane g)
    (hnames : (p.functions.map (·.name)).Nodup) (h : p.lower = .ok m) :
    ∃ callee, Lower.Linked p m callee ∧ ∀ (i : Nat) g, p.functions[i]? = some g →
      ∃ f c, m.functions[i]? = some f ∧ f.name = g.name ∧ (f.params : Int) = g.arity.toInt ∧
        c.callee = callee ∧ c.params = (fun j => (m.functions[j]?).map (·.params)) ∧
        Lower.Lowered c g f := by
  unfold Program.lower at h
  split at h
  · cases h
  · rename_i fs hfs
    rw [mapM_eq_some] at hfs
    obtain ⟨s, hs, rfl⟩ := map_eq_ok.mp h
    have hall := Lower.lowerAll_declared hfs hnames hsane hs
    exact ⟨s.names.callee, hall.linked hfs hnames, fun i g hg => hall.function hfs hnames hg⟩

end FlowGraph

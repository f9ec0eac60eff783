import FlowGraph.Proofs.Acceptance
import FlowGraph.Proofs.Arena
import FlowGraph.Proofs.OptimizedLowering
import FlowGraph.Proofs.RoundTrip

/-!
Whether a simplified program can be printed and read again. It can always be
printed, since its blocks keep their labels and its values their numbers. The
reader takes the text when each value is given in a line before it is named. A
run of the passes leaves the lines in order, so this asks only that no value is
lost: what a path comes to must not name a value of a block that no path comes
to.
-/

namespace FlowGraph

namespace Text

/-! ## The lines of a graph -/

/-- The line of an instruction, by the names of values and the labels of its function. -/
def instrTokens (names : ValueId → String) (labels : List String) (i : Instr) : List Token :=
  actionTokens names labels i.id i.toAction

def linesOfBlock (names : ValueId → String) (labels : List String) (b : Block) :
    List (List Token) :=
  [.ident b.name, .mark .colon] :: b.code.map (instrTokens names labels)

/-- The label of the entry, where it is not the first block. -/
def entryName (g : Graph) : Option String :=
  if g.order.head? = g.entry then none else g.entryBlock?.map (·.name)

/-- The function that a graph is printed as. -/
def funcOfGraph (labels : List String) (g : Graph) : Func where
  name := g.name
  entry := entryName g
  body := g.blocks.flatMap (linesOfBlock valueName labels)

/-- The graph has blocks of these labels, by number, and instructions that lines can say. -/
structure Labelled (labels : List String) (g : Graph) : Prop where
  wellFormed : g.WellFormed
  name : IsIdent g.name
  idents : ∀ n ∈ labels, IsIdent n
  nodup : labels.Nodup
  block : ∀ b ∈ g.order, ∃ (k : Nat) (block : Block), b = k ∧ g.block? b = some block ∧
    labels[k]? = some block.name
  number : ∀ i ∈ g.instrs, ∃ n : Nat, i.id = n
  printable : ∀ i ∈ g.instrs, Printable labels i.toAction

/-- Pieces that are printed one by one make up a text. -/
theorem mapM_isText {α ε : Type} {f : α → Except ε String} {lines : α → List (List Token)}
    {xs : List α} (h : ∀ x ∈ xs, ∃ s, f x = .ok s ∧ IsText s (lines x)) :
    ∃ ss, xs.mapM f = .ok ss ∧ IsText (String.join ss) (xs.flatMap lines) := by
  induction xs with
  | nil => exact ⟨[], rfl, .nil⟩
  | cons x xs ih =>
    obtain ⟨hx, hxs⟩ := List.forall_mem_cons.mp h
    obtain ⟨s, hs, htext⟩ := hx
    obtain ⟨ss, hss, htexts⟩ := ih hxs
    refine ⟨s :: ss, ?_, ?_⟩
    · rw [List.mapM_cons, hs, hss]
      rfl
    · rw [String.join_cons]
      exact htext.append htexts

namespace Labelled

variable {labels : List String} {g : Graph}

theorem label (h : Labelled labels g) {b : Block} (hb : b ∈ g.blocks) : b.name ∈ labels := by
  obtain ⟨id, hid, hb⟩ := Graph.mem_blocks.mp hb
  obtain ⟨k, block, -, hblock, hname⟩ := h.block id hid
  rw [hb] at hblock
  cases hblock
  exact List.mem_of_getElem? hname

/-- A block that an instruction names is one of the graph. -/
theorem target (h : Labelled labels g) {i : Instr} (hi : i ∈ g.instrs) {k : Nat}
    (hk : .block k ∈ i.args) :
    ∃ b ∈ g.blocks, g.block? k = some b ∧ labels[k]? = some b.name := by
  have hin := h.wellFormed.target_mem hi hk
  obtain ⟨k', b, hkk, hb, hname⟩ := h.block k hin
  obtain rfl : k = k' := Int.ofNat.inj hkk
  exact ⟨b, Graph.mem_blocks.mpr ⟨k, hin, hb⟩, hb, hname⟩

theorem printBlock (h : Labelled labels g) {b : Block} (hb : b ∈ g.blocks) :
    ∃ s, Text.printBlock g b = .ok s ∧ IsText s (linesOfBlock valueName labels b) := by
  have hcode : ∀ i ∈ b.code,
      ∃ s, printInstr g i = .ok s ∧ IsText s [instrTokens valueName labels i] := by
    intro i hi
    have hin : i ∈ g.instrs := List.mem_flatMap.mpr ⟨b, hb, hi⟩
    obtain ⟨n, hn⟩ := h.number i hin
    refine printInstr_eq h.idents hn (fun k m hk hm => ?_) (h.printable i hin)
    obtain ⟨b', -, hb', hname⟩ := h.target hin hk
    rw [hm] at hname
    exact ⟨b', hb', (Option.some.inj hname).symm⟩
  obtain ⟨ss, hss, htext⟩ := mapM_isText hcode
  refine ⟨b.name ++ ":\n" ++ String.join ss, ?_, ?_⟩
  · unfold Text.printBlock
    rw [hss]
  · rw [← List.map_eq_flatMap] at htext
    exact (isText_label (h.idents _ (h.label hb))).append htext

/-- The header names the entry unless it is the first block. -/
theorem printEntry (h : Labelled labels g) :
    Text.printEntry g = ((entryName g).map fun l => " entry " ++ l).getD "" := by
  obtain ⟨e, hmem, he⟩ := h.wellFormed.entry
  obtain ⟨block, hblock, -⟩ := h.wellFormed.block e hmem
  have hentry : g.entryBlock? = some block := by
    unfold Graph.entryBlock?
    rw [he]
    exact hblock
  have hempty : g.order.isEmpty = false := List.isEmpty_eq_false_iff_exists_mem.mpr ⟨e, hmem⟩
  unfold Text.printEntry entryName
  rw [hentry, hempty]
  by_cases hfirst : g.order.head? = g.entry <;> simp [hfirst]

/-- The entry that a header names is the label of a block. -/
theorem entryName_mem (h : Labelled labels g) {l : String} (hl : entryName g = some l) :
    ∃ b ∈ g.blocks, b.name = l := by
  unfold entryName at hl
  split at hl
  · cases hl
  · obtain ⟨b, hb, rfl⟩ := Option.map_eq_some_iff.mp hl
    obtain ⟨e, hmem, he⟩ := h.wellFormed.entry
    unfold Graph.entryBlock? at hb
    rw [he, Option.bind_some] at hb
    exact ⟨b, Graph.mem_blocks.mpr ⟨e, hmem, hb⟩, rfl⟩

/-- The graph is printed as its function. -/
theorem printGraph (h : Labelled labels g) :
    ∃ s, Text.printGraph g = .ok s ∧ IsText s (funcOfGraph labels g).lines := by
  obtain ⟨ss, hss, hblocks⟩ := mapM_isText fun b hb => h.printBlock hb
  have hentry : ∀ l, entryName g = some l → IsIdent l := by
    intro l hl
    obtain ⟨b, hb, rfl⟩ := h.entryName_mem hl
    exact h.idents _ (h.label hb)
  have hheader := isText_headerLine h.name hentry
  have hline : (funcOfGraph labels g).header = .ident "func" :: .ident g.name ::
      (((entryName g).map fun l => [Token.ident "entry", .ident l]).getD [] ++
        [.mark .openBrace]) := by
    unfold Func.header funcOfGraph
    cases entryName g <;> rfl
  rw [← h.printEntry, ← hline] at hheader
  unfold Text.printGraph
  rw [hss]
  exact ⟨_, rfl, (hheader.append hblocks).append isText_closing⟩

end Labelled

/-! ## Reading the lines of a graph -/

section Lines

variable {labels : List String}

theorem labelOf?_label (n : String) : labelOf? [.ident n, .mark .colon] = some n := rfl

theorem labelOf?_eq_some {ts : List Token} {n : String} (h : labelOf? ts = some n) :
    ts = [.ident n, .mark .colon] :=
  label?_eq_some.mp (show (Line.mk 0 ts).label? = some n from h)

theorem labelOf?_instrTokens (labels : List String) (i : Instr) :
    labelOf? (instrTokens valueName labels i) = none :=
  (actionTokens_shape (l := ⟨0, instrTokens valueName labels i⟩) rfl).1

theorem instrTokens_ne_closing (labels : List String) (i : Instr) :
    instrTokens valueName labels i ≠ [.mark .closeBrace] := by
  intro h
  have hshape := (actionTokens_shape (l := ⟨0, instrTokens valueName labels i⟩) rfl).2
  rw [isClosing_iff.mpr h] at hshape
  cases hshape

/-- A line of a graph is a label or an instruction. -/
theorem mem_body {g : Graph} {ts : List Token} (h : ts ∈ (funcOfGraph labels g).body) :
    (∃ n, ts = [.ident n, .mark .colon]) ∨ ∃ i, ts = instrTokens valueName labels i := by
  obtain ⟨b, -, hts⟩ := List.mem_flatMap.mp h
  rcases List.mem_cons.mp hts with rfl | hts
  · exact .inl ⟨b.name, rfl⟩
  · obtain ⟨i, -, rfl⟩ := List.mem_map.mp hts
    exact .inr ⟨i, rfl⟩

theorem body_ne_closing {g : Graph} {ts : List Token} (h : ts ∈ (funcOfGraph labels g).body) :
    ts ≠ [.mark .closeBrace] := by
  rcases mem_body h with ⟨n, rfl⟩ | ⟨i, rfl⟩
  · simp
  · exact instrTokens_ne_closing labels i

theorem labels_funcOfGraph (labels : List String) (g : Graph) :
    (funcOfGraph labels g).labels = g.blocks.map (·.name) := by
  have hblock : ∀ b : Block, (linesOfBlock valueName labels b).filterMap labelOf? = [b.name] := by
    intro b
    have hcode : (b.code.map (instrTokens valueName labels)).filterMap labelOf? = [] := by
      rw [List.filterMap_eq_nil_iff]
      intro ts hts
      obtain ⟨i, -, rfl⟩ := List.mem_map.mp hts
      exact labelOf?_instrTokens labels i
    unfold linesOfBlock
    rw [List.filterMap_cons_some (labelOf?_label b.name), hcode]
  unfold Func.labels funcOfGraph
  rw [List.filterMap_flatMap, List.map_eq_flatMap]
  exact congrArg (g.blocks.flatMap ·) (funext hblock)

theorem filter_body (labels : List String) (g : Graph) :
    (funcOfGraph labels g).body.filter (fun ts => (labelOf? ts).isNone) =
      g.instrs.map (instrTokens valueName labels) := by
  have hblock : ∀ b : Block,
      (linesOfBlock valueName labels b).filter (fun ts => (labelOf? ts).isNone) =
        b.code.map (instrTokens valueName labels) := by
    intro b
    unfold linesOfBlock
    rw [List.filter_cons_of_neg (by simp [labelOf?_label]), List.filter_eq_self]
    intro ts hts
    obtain ⟨i, -, rfl⟩ := List.mem_map.mp hts
    rw [labelOf?_instrTokens]
    rfl
  unfold funcOfGraph Graph.instrs
  rw [List.filter_flatMap, List.map_flatMap]
  exact congrArg (g.blocks.flatMap ·) (funext hblock)

/-- Labels are no matter for what may stand in a body. -/
theorem isBody_filter {values : List String} {ls : List (List Token)} :
    IsBody labels values (ls.filter fun ts => (labelOf? ts).isNone) ↔ IsBody labels values ls := by
  induction ls generalizing values with
  | nil => rfl
  | cons ts ls ih =>
    cases hts : labelOf? ts with
    | some n =>
      rw [List.filter_cons_of_neg (by simp [hts]), ih, labelOf?_eq_some hts, isBody_label]
    | none =>
      rw [List.filter_cons_of_pos (by simp [hts])]
      constructor
      · intro h
        cases h with
        | label n h => cases hts
        | instr hi h => exact .instr hi (ih.mp h)
      · intro h
        cases h with
        | label n h => cases hts
        | instr hi h => exact .instr hi (ih.mpr h)

/-- The labels that an action names are among these names. -/
def TargetsIn (labels names : List String) (a : Action) : Prop :=
  ∀ (k : Nat) n, .block k ∈ a.args → labels[k]? = some n → n ∈ names

/-- How many tokens stand between an operation and its operands. -/
def detailCount : Op → Nat
  | .const | .arg | .cmp | .call => 1
  | _ => 0

/-- How many labels an operation takes, after its values. -/
def labelCount : Op → Nat
  | .br => 1
  | .brif => 2
  | _ => 0

/-- The values of an operation are what stands between its details and its labels. -/
theorem IsOperation.parts {names values : List String} {gives : Bool} {ts : List Token}
    (h : IsOperation names values gives ts) :
    ∃ (op : Op) (detail : List Token) (vs ls : List String),
      ts = .ident op.name :: (detail ++ (vs ++ ls).map .ident) ∧ op.isKnown = true ∧
        op.defines = gives ∧ detail.length = detailCount op ∧ ls.length = labelCount op ∧
        ∀ v ∈ vs, v ∈ values := by
  cases h with
  | const x => exact ⟨.const, [.number x], [], [], rfl, rfl, rfl, rfl, rfl, by simp⟩
  | @arg x _ => exact ⟨.arg, [.number x], [], [], rfl, rfl, rfl, rfl, rfl, by simp⟩
  | @binary w x y hw hx hy =>
    have hin : ∀ v ∈ [x, y], v ∈ values := by simp [hx, hy]
    simp only [List.mem_cons, List.not_mem_nil, or_false] at hw
    rcases hw with rfl | rfl | rfl
    · exact ⟨.add, [], [x, y], [], rfl, rfl, rfl, rfl, rfl, hin⟩
    · exact ⟨.sub, [], [x, y], [], rfl, rfl, rfl, rfl, rfl, hin⟩
    · exact ⟨.mul, [], [x, y], [], rfl, rfl, rfl, rfl, rfl, hin⟩
  | @cmp c x y _ hx hy =>
    exact ⟨.cmp, [.ident c], [x, y], [], rfl, rfl, rfl, rfl, rfl, by simp [hx, hy]⟩
  | @call f vs hvs =>
    exact ⟨.call, [.ident f], vs, [], by simp [Op.name], rfl, rfl, rfl, rfl, hvs⟩
  | @br l _ => exact ⟨.br, [], [], [l], rfl, rfl, rfl, rfl, rfl, by simp⟩
  | @brif c yes no hc _ _ =>
    exact ⟨.brif, [], [c], [yes, no], rfl, rfl, rfl, rfl, rfl, by simp [hc]⟩
  | ret => exact ⟨.ret, [], [], [], rfl, rfl, rfl, rfl, rfl, by simp⟩
  | @retValue v hv => exact ⟨.ret, [], [v], [], rfl, rfl, rfl, rfl, rfl, by simp [hv]⟩

/-- A printed action has its values between its details and its labels. -/
theorem operands_printed {a : Action} (ha : Printable labels a) :
    (detailTokens a).length = detailCount a.op ∧ a.targets.length = labelCount a.op ∧
      a.args.map (operandName valueName labels) = a.values.map valueName ++
        a.targets.map fun b => operandName valueName labels (.block b) := by
  obtain ⟨given, hproper, -⟩ := ha
  cases hproper with
  | const | arg | cmp | br | brif => exact ⟨rfl, rfl, rfl⟩
  | binary hop => rcases hop with rfl | rfl | rfl <;> exact ⟨rfl, rfl, rfl⟩
  | @call f vs | @ret vs =>
    refine ⟨rfl, ?_, ?_⟩
    · exact congrArg List.length (filterMap_block?_values vs)
    · simp only [Action.values, Action.targets, Action.call, Action.ret, filterMap_value?_values,
        filterMap_block?_values, List.map_map, List.map_nil, List.append_nil]
      rfl

/-- The operation of a printable action may stand where its values are in scope. -/
theorem isOperation_of_scope {names values : List String} {a : Action} (ha : Printable labels a)
    (hnames : TargetsIn labels names a) (hvalues : ∀ v ∈ a.values, valueName v ∈ values) :
    IsOperation names values a.op.defines (.ident a.op.name ::
      (detailTokens a ++ a.args.map fun x => .ident (operandName valueName labels x))) := by
  obtain ⟨given, hproper, -⟩ := ha
  have hlabel : ∀ k : Nat, k < labels.length → .block k ∈ a.args →
      operandName valueName labels (.block k) ∈ names := by
    intro k hk hmem
    rw [operandName_block hk]
    exact hnames k _ hmem (List.getElem?_eq_getElem hk)
  have hwords : ∀ vs : List ValueId,
      ((vs.map Operand.value).map fun x => Token.ident (operandName valueName labels x)) =
        (vs.map valueName).map .ident := by
    intro vs
    rw [List.map_map, List.map_map]
    rfl
  have hin : ∀ vs : List ValueId, a.args = vs.map .value → ∀ n ∈ vs.map valueName, n ∈ values := by
    intro vs hvs n hn
    obtain ⟨v, hv, rfl⟩ := List.mem_map.mp hn
    refine hvalues v ?_
    unfold Action.values
    rwa [hvs, filterMap_value?_values]
  cases hproper with
  | const x => exact .const x
  | arg hx => exact .arg (not_lt_zero_iff.mp hx)
  | @binary op x y hop =>
    have hword : op.name ∈ ["add", "sub", "mul"] := by rcases hop with rfl | rfl | rfl <;> decide
    have hnone : detailTokens (.binary op x y) = [] := by rcases hop with rfl | rfl | rfl <;> rfl
    have hgives : op.defines = true := by rcases hop with rfl | rfl | rfl <;> rfl
    show IsOperation names values op.defines _
    rw [hnone, hgives]
    exact .binary hword (hin [x, y] rfl _ List.mem_cons_self)
      (hin [x, y] rfl _ (List.mem_cons_of_mem _ List.mem_cons_self))
  | @cmp c x y =>
    exact .cmp (cond_iff.mpr ⟨c, rfl⟩) (hin [x, y] rfl _ List.mem_cons_self)
      (hin [x, y] rfl _ (List.mem_cons_of_mem _ List.mem_cons_self))
  | @call f vs =>
    have hcall : IsOperation names values true _ := .call f (hin vs rfl)
    rw [← hwords] at hcall
    exact hcall
  | br hb => exact .br (hlabel _ hb (by simp [Action.br]))
  | brif _ hyes hno =>
    exact .brif (hvalues _ (by simp [Action.values, Action.brif, Operand.value?]))
      (hlabel _ hyes (by simp [Action.brif])) (hlabel _ hno (by simp [Action.brif]))
  | @ret vs hlen =>
    rcases vs with _ | ⟨v, _ | ⟨w, vs⟩⟩
    · exact .ret
    · exact .retValue (hin [v] rfl _ List.mem_cons_self)
    · simp at hlen

/-- It may stand nowhere else, and it gives a value if the action does. -/
theorem isOperation_printed {names values : List String} {gives : Bool} {a : Action}
    (ha : Printable labels a) (hnames : TargetsIn labels names a) :
    IsOperation names values gives (.ident a.op.name ::
        (detailTokens a ++ a.args.map fun x => .ident (operandName valueName labels x))) ↔
      gives = a.op.defines ∧ ∀ v ∈ a.values, valueName v ∈ values := by
  have hsplit : (a.args.map fun x => Token.ident (operandName valueName labels x)) =
      (a.args.map (operandName valueName labels)).map .ident := by rw [List.map_map]; rfl
  obtain ⟨hdetail, htargets, hargs⟩ := operands_printed ha
  constructor
  · intro h
    obtain ⟨op, detail, vs, ls, hts, hknown, hdefines, hdetail', hlabels', hvs⟩ := h.parts
    obtain ⟨hname, hrest⟩ := List.cons.inj hts
    obtain rfl : a.op = op := by
      obtain ⟨given, hproper, -⟩ := ha
      have hsame := Op.ofName?_name hproper.known
      rw [Token.ident.inj hname, Op.ofName?_name hknown] at hsame
      exact (Option.some.inj hsame).symm
    rw [hsplit] at hrest
    obtain ⟨-, hrest⟩ := List.append_inj hrest (hdetail.trans hdetail'.symm)
    have hnames := List.map_injective_iff.mpr (fun _ _ => Token.ident.inj) hrest
    rw [hargs] at hnames
    obtain ⟨hvalues, -⟩ := List.append_inj' hnames (by rw [List.length_map, htargets, hlabels'])
    refine ⟨hdefines.symm, fun v hv => hvs _ ?_⟩
    rw [← hvalues]
    exact List.mem_map_of_mem hv
  · rintro ⟨rfl, hvalues⟩
    exact isOperation_of_scope ha hnames hvalues

/-- The name that an instruction is printed with for its value. -/
def nameGiven (i : Instr) : Option String :=
  if i.op.defines then some (valueName i.id) else none

/-- The line of an instruction may stand where its values are in scope and its own name is
new. -/
theorem isInstr_printed {names values : List String} {given : Option String} {i : Instr}
    (hi : Printable labels i.toAction) (hnames : TargetsIn labels names i.toAction) :
    IsInstr names values given (instrTokens valueName labels i) ↔
      given = nameGiven i ∧ (∀ n ∈ nameGiven i, n ∉ values) ∧
        ∀ v ∈ i.values, valueName v ∈ values := by
  have hoperation : ∀ gives, IsOperation names values gives _ ↔ _ := fun _ =>
    isOperation_printed hi hnames
  have hmarks := mark_notMem_operands valueName labels i.toAction .equals
  unfold instrTokens actionTokens nameGiven
  generalize (detailTokens i.toAction ++ i.args.map
    fun x => Token.ident (operandName valueName labels x)) = ts at *
  cases hdefines : i.op.defines with
  | true =>
    rw [if_pos rfl, if_pos rfl]
    constructor
    · intro h
      cases h with
      | plain h => exact absurd (by simp) (h.mark_notMem .equals)
      | named hnew h => exact ⟨rfl, by simpa using hnew, ((hoperation _).mp h).2⟩
    · rintro ⟨rfl, hnew, hvalues⟩
      exact .named (hnew _ rfl) ((hoperation _).mpr ⟨hdefines.symm, hvalues⟩)
  | false =>
    rw [if_neg (by simp), if_neg (by simp), List.nil_append]
    constructor
    · intro h
      cases h with
      | plain h => exact ⟨rfl, by simp, ((hoperation _).mp h).2⟩
      | named => exact absurd List.mem_cons_self hmarks
    · rintro ⟨rfl, -, hvalues⟩
      exact .plain ((hoperation _).mpr ⟨rfl, hvalues⟩)

theorem defines_eq {a : Action} (ha : Printable labels a) : a.op.defines = !a.isTerminator := by
  obtain ⟨given, hproper, -⟩ := ha
  cases hproper with
  | binary hop => rcases hop with rfl | rfl | rfl <;> rfl
  | const | arg | cmp | call | br | brif | ret => rfl

theorem natural_values {a : Action} (ha : Printable labels a) {v : ValueId} (hv : v ∈ a.values) :
    ∃ n : Nat, v = n := by
  obtain ⟨given, hproper, hgiven⟩ := ha
  rcases hproper.operands _ (Action.mem_values.mp hv) with ⟨w, hw, heq⟩ | ⟨k, -, heq⟩
  · cases heq
    exact hgiven v hw
  · cases heq

/-- Instructions in a row whose numbers go up may stand in a body when they name only values
that are known, or given by one before. -/
theorem isBody_printed {names : List String} {is : List Instr}
    (hprintable : ∀ i ∈ is, (∃ n : Nat, i.id = n) ∧ Printable labels i.toAction)
    (hnames : ∀ i ∈ is, TargetsIn labels names i.toAction)
    (hrise : is.Pairwise fun i j => i.id < j.id) {values : List String} {known : List ValueId}
    (hvalues : ∀ n : Nat, valueName n ∈ values ↔ (n : Int) ∈ known)
    (hnew : ∀ i ∈ is, i.id ∉ known) :
    IsBody names values (is.map (instrTokens valueName labels)) ↔ Lower.Scoped known is := by
  induction is generalizing values known with
  | nil => exact ⟨fun _ => trivial, fun _ => .nil⟩
  | cons i is ih =>
    obtain ⟨⟨⟨n, hn⟩, hi⟩, hprintable⟩ := List.forall_mem_cons.mp hprintable
    obtain ⟨hiNames, hnames⟩ := List.forall_mem_cons.mp hnames
    obtain ⟨hlt, hrise⟩ := List.pairwise_cons.mp hrise
    obtain ⟨hiNew, hnew⟩ := List.forall_mem_cons.mp hnew
    have hinScope : (∀ v ∈ i.values, valueName v ∈ values) ↔ ∀ v ∈ i.values, v ∈ known := by
      refine forall₂_congr fun v hv => ?_
      obtain ⟨m, rfl⟩ := natural_values hi hv
      exact hvalues m
    have hfresh : ∀ m ∈ nameGiven i, m ∉ values := by
      unfold nameGiven
      intro m hm
      split at hm
      · cases hm
        rw [hn, hvalues, ← hn]
        exact hiNew
      · cases hm
    -- the name and the value that the instruction gives
    have hnext : ∀ m : Nat, valueName m ∈ values ++ (nameGiven i).toList ↔
        (m : Int) ∈ i.gives ++ known := by
      intro m
      rw [List.mem_append, List.mem_append, hvalues, or_comm, Instr.mem_gives]
      apply or_congr_left
      unfold nameGiven
      rw [defines_eq hi, hn]
      cases i.isTerminator with
      | true => simp
      | false =>
        rw [Bool.not_false, if_pos rfl, Option.toList_some, List.mem_singleton]
        constructor
        · exact fun h => ⟨rfl, congrArg _ (valueName_inj h).symm⟩
        · exact fun h => congrArg _ h.2.symm
    have hrest := ih hprintable hnames hrise hnext (by
      intro j hj hmem
      rcases List.mem_append.mp hmem with hmem | hmem
      · exact absurd (Instr.mem_gives.mp hmem).2 (Int.ne_of_lt (hlt j hj))
      · exact hnew j hj hmem)
    rw [Lower.Scoped, List.map_cons, ← hrest, ← hinScope]
    constructor
    · intro h
      generalize hts : instrTokens valueName labels i = ts at h
      cases h with
      | label m h =>
        have := labelOf?_instrTokens labels i
        rw [hts] at this
        cases this
      | instr h hbody =>
        rw [← hts] at h
        obtain ⟨rfl, -, hscope⟩ := (isInstr_printed hi hiNames).mp h
        exact ⟨hscope, hbody⟩
    · rintro ⟨hscope, hbody⟩
      exact .instr ((isInstr_printed hi hiNames).mpr ⟨rfl, hfresh, hscope⟩) hbody

end Lines

namespace Labelled

variable {labels : List String} {g : Graph}

theorem nodup_names (h : Labelled labels g) : (g.blocks.map (·.name)).Nodup := by
  unfold List.Nodup Graph.blocks
  rw [List.pairwise_map, List.pairwise_filterMap]
  refine h.wellFormed.nodup.imp_of_mem ?_
  intro b c hb hc hne block hblock block' hblock' hsame
  obtain ⟨k, _, rfl, hk, hname⟩ := h.block b hb
  obtain ⟨k', _, rfl, hk', hname'⟩ := h.block c hc
  rw [hblock] at hk
  rw [hblock'] at hk'
  cases hk
  cases hk'
  rw [hsame, ← hname'] at hname
  have hlt := (List.getElem?_eq_some_iff.mp hname').1
  exact hne (congrArg _ ((List.getElem?_inj hlt h.nodup).mp hname.symm).symm)

/-- The lines of a graph are those of a function that is read, when the numbers of its
instructions go up and each names only values that are given before. -/
theorem proper_iff (h : Labelled labels g) (hrise : g.instrs.Pairwise fun i j => i.id < j.id) :
    (funcOfGraph labels g).Proper ↔ Lower.Scoped [] g.instrs := by
  have hbody : IsBody (g.blocks.map (·.name)) [] (funcOfGraph labels g).body ↔
      Lower.Scoped [] g.instrs := by
    rw [← isBody_filter, filter_body]
    refine isBody_printed (fun i hi => ⟨h.number i hi, h.printable i hi⟩) ?_ hrise (by simp) (by simp)
    intro i hi k n hk hn
    obtain ⟨b, hb, -, hname⟩ := h.target hi hk
    rw [hn] at hname
    exact List.mem_map.mpr ⟨b, hb, (Option.some.inj hname).symm⟩
  rw [← hbody, ← labels_funcOfGraph labels g]
  refine ⟨fun hproper => hproper.body, fun hbody => ⟨?_, ?_, ?_, ?_, hbody⟩⟩
  · exact fun ts hts => body_ne_closing hts
  · obtain ⟨e, hmem, -⟩ := h.wellFormed.entry
    obtain ⟨block, hblock, -⟩ := h.wellFormed.block e hmem
    have hin := Graph.mem_blocks.mpr ⟨e, hmem, hblock⟩
    cases hblocks : g.blocks with
    | nil =>
      rw [hblocks] at hin
      cases hin
    | cons b bs =>
      refine ⟨b.name, b.code.map (instrTokens valueName labels) ++
        bs.flatMap (linesOfBlock valueName labels), ?_⟩
      unfold funcOfGraph
      rw [hblocks]
      rfl
  · rw [labels_funcOfGraph]
    exact h.nodup_names
  · intro l hl
    rw [labels_funcOfGraph]
    obtain ⟨b, hb, rfl⟩ := h.entryName_mem hl
    exact List.mem_map_of_mem hb

end Labelled

section Printed

variable {α : Type} {labels : α → List String} {graph : α → Graph} {xs : List α}

/-- Functions are printed as their lines. -/
theorem lines_printed (h : ∀ x ∈ xs, Labelled (labels x) (graph x)) :
    ∃ out ls, printFunctions (xs.map graph) = .ok out ∧ linesOf (bytesOf out) = .ok ls ∧
      ls.map (·.tokens) = xs.flatMap fun x => (funcOfGraph (labels x) (graph x)).lines := by
  have hlines : ∀ x ∈ xs, ∀ ts ∈ (funcOfGraph (labels x) (graph x)).lines, ts ≠ [] := by
    intro x _ ts hts
    unfold Func.lines at hts
    rw [List.mem_cons, List.mem_append, List.mem_singleton] at hts
    rcases hts with rfl | hts | rfl
    · unfold Func.header
      split <;> simp
    · rcases mem_body hts with ⟨n, rfl⟩ | ⟨i, rfl⟩
      · simp
      · exact actionTokens_ne_nil _ _ _ _
    · simp
  obtain ⟨out, tss, hprint, htext, hfilter⟩ :=
    printFunctions_of_texts (fun x hx => (h x hx).printGraph) hlines
  obtain ⟨ls, hls, hmap⟩ := htext.linesOf
  exact ⟨out, ls, hprint, hls, hmap.trans hfilter⟩

/-- Functions with names of their own are printed, and read again when each is proper. -/
theorem read_printed (h : ∀ x ∈ xs, Labelled (labels x) (graph x))
    (hnames : (xs.map fun x => (graph x).name).Nodup) :
    ∃ out, printFunctions (xs.map graph) = .ok out ∧ ∀ path,
      (∃ p, read path (bytesOf out) = .ok p) ↔
        ∀ x ∈ xs, (funcOfGraph (labels x) (graph x)).Proper := by
  obtain ⟨out, ls, hprint, hls, hmap⟩ := lines_printed h
  have hplain := plain_of_numberedLines hls
  refine ⟨out, hprint, fun path => ?_⟩
  generalize hfs : (xs.map fun x => funcOfGraph (labels x) (graph x)) = fs
  have hall : (∀ x ∈ xs, (funcOfGraph (labels x) (graph x)).Proper) ↔ ∀ f ∈ fs, f.Proper := by
    rw [← hfs, List.forall_mem_map]
  have hfunctions : ls.map (·.tokens) = fs.flatMap Func.lines := by
    rw [hmap, ← hfs, List.flatMap_map]
  have hdistinct : (fs.map (·.name)).Nodup := by
    rw [← hfs, List.map_map]
    exact hnames
  rw [hall]
  unfold read
  rw [hls]
  constructor
  · rintro ⟨p, hp⟩
    obtain ⟨gs, hgs, -⟩ := map_eq_ok.mp hp
    refine proper_of_readFunctions hplain hfunctions ?_ hgs
    intro f hf ts hts
    rw [← hfs] at hf
    obtain ⟨x, -, rfl⟩ := List.mem_map.mp hf
    exact body_ne_closing hts
  · intro hproper
    obtain ⟨gs, hgs⟩ : ∃ gs, readFunctions [] ls = .ok gs :=
      readFunctions_of_lines hplain hfunctions hdistinct hproper
    exact ⟨⟨path, gs⟩, map_eq_ok.mpr ⟨gs, hgs, rfl⟩⟩

end Printed

end Text

/-! ## What is left of a function that was read -/

/-- Where numbers go up and each instruction names lower ones, the values are in scope that are
given at all. -/
theorem Lower.scoped_iff_of_rising {is : List Instr} (hrise : is.Pairwise fun i j => i.id < j.id)
    (hlow : ∀ i ∈ is, ∀ v ∈ i.values, v < i.id) (known : List ValueId) :
    Scoped known is ↔ ∀ i ∈ is, ∀ v ∈ i.values, v ∈ known ∨ ∃ j ∈ is, v ∈ j.gives := by
  induction is generalizing known with
  | nil => simp [Scoped]
  | cons i is ih =>
    obtain ⟨hlt, hrise⟩ := List.pairwise_cons.mp hrise
    obtain ⟨hiLow, hlow⟩ := List.forall_mem_cons.mp hlow
    have hfirst : ∀ v ∈ i.values, ∀ j ∈ i :: is, v ∉ j.gives := by
      intro v hv j hj hmem
      obtain ⟨-, rfl⟩ := Instr.mem_gives.mp hmem
      have hbelow := hiLow _ hv
      rcases List.mem_cons.mp hj with rfl | hj
      · exact Int.lt_irrefl _ hbelow
      · exact Int.lt_irrefl _ (Int.lt_trans hbelow (hlt j hj))
    rw [Scoped, ih hrise hlow, List.forall_mem_cons]
    apply and_congr
    · refine forall₂_congr fun v hv => ⟨.inl, ?_⟩
      rintro (hknown | ⟨j, hj, hmem⟩)
      · exact hknown
      · exact absurd hmem (hfirst v hv j hj)
    · refine forall₂_congr fun j _ => forall₂_congr fun v _ => ?_
      simp only [List.mem_append, List.exists_mem_cons_iff]
      grind

theorem Action.Proper.retarget {labels : Nat} {given : ValueId → Prop} {i : Instr}
    (h : i.toAction.Proper labels given) {f : BlockId → BlockId}
    (hf : ∀ b ∈ (i.retarget f).targets, ∃ k : Nat, k < labels ∧ b = k) :
    (i.retarget f).toAction.Proper labels given := by
  have hsame : Operand.retarget f = Operand.renumber f id := by
    funext x
    cases x <;> rfl
  have heq : (i.retarget f).toAction = i.toAction.renumber f id := by
    unfold Instr.retarget Action.renumber
    rw [hsame]
  rw [heq]
  refine h.renumber (fun b hb => hf (f b) ?_) fun v hv => ?_
  · rw [Instr.retarget_targets]
    exact List.mem_map_of_mem (Action.mem_targets.mpr hb)
  · rcases h.operands _ hv with ⟨w, hw, heq⟩ | ⟨k, -, heq⟩
    · cases heq
      exact hw
    · cases heq

/-- The numbers that are left are some of those that were there, in their order. -/
theorem Graph.Trimmed.ids {g g' : Graph} (h : g.Trimmed g') :
    (g'.instrs.map (·.id)).Sublist (g.instrs.map (·.id)) := by
  obtain ⟨f, hf⟩ := h.code
  have hsame : ∀ b ∈ g'.order, g'.valuesIn b = g.valuesIn b := by
    intro b hb
    unfold valuesIn
    rw [hf b hb]
    cases g.block? b with
    | none => rfl
    | some block => simp [Block.retarget]
  rw [map_id_instrs, map_id_instrs, List.flatMap_congr hsame]
  exact h.order.flatMap _

/-- An instruction of a function that was read names lower numbers than its own. -/
theorem Outline.Valid.lower {o : Outline} (h : o.Valid) {i : Instr} (hi : i ∈ o.graph.instrs)
    {v : ValueId} (hv : v ∈ i.values) : v < i.id := by
  obtain ⟨j, -, rfl, -, hlt⟩ := h.written.values i hi v (Action.mem_values.mp hv)
  exact hlt

namespace Graph

/-- What a path comes to names only values that are given where a path comes to. -/
def GivesLive (g : Graph) : Prop :=
  ∀ i, g.Lives i → ∀ v ∈ i.values, ∃ j, g.Lives j ∧ v ∈ j.gives

section Pruned

variable {o : Outline} {g : Graph}

theorem Trimmed.labelled (h : o.graph.Trimmed g) (ho : o.Valid) (hwf : o.graph.WellFormed) :
    Text.Labelled o.labels g := by
  obtain ⟨f, hfrom⟩ := h.instr_of_mem hwf
  refine ⟨h.wellFormed, h.name ▸ ho.name, ho.labels, ho.nodup, ?_, ?_, ?_⟩
  · intro b hb
    obtain ⟨k, hk, rfl⟩ := Outline.mem_order_graph.mp (h.order.subset hb)
    have hlabel := List.getElem?_eq_getElem (l := o.labels) (by rwa [o.length_labels])
    obtain ⟨block, hblock, hname⟩ := Text.hasLabels_graph o k _ hlabel
    obtain ⟨f', hf'⟩ := h.code
    refine ⟨k, block.retarget f', rfl, ?_, ?_⟩
    · rw [hf' _ hb, hblock]
      rfl
    · rw [hlabel, ← hname]
      rfl
  · intro i' hi'
    obtain ⟨i, hi, rfl⟩ := hfrom i' hi'
    obtain ⟨k, hid, -, -⟩ := ho.proper_of_mem hi
    exact ⟨k, hid⟩
  · intro i' hi'
    obtain ⟨b, hb, block, hblock, hmem⟩ := mem_instrs.mp hi'
    obtain ⟨i, hi, rfl⟩ := hfrom i' hi'
    obtain ⟨k, -, -, hproper⟩ := ho.proper_of_mem hi
    refine ⟨Gives (o.actions.take k), ?_, ?_⟩
    · rw [o.length_labels]
      refine hproper.retarget fun t ht => ?_
      have hin := (h.wellFormed.block_of_mem hb hblock).inside _ hmem t ht
      exact Outline.mem_order_graph.mp (h.order.subset hin)
    · rintro v ⟨j, -, -, -, rfl⟩
      exact ⟨j, rfl⟩

theorem Trimmed.rising (h : o.graph.Trimmed g) : g.instrs.Pairwise fun i j => i.id < j.id :=
  List.pairwise_map.mp (o.rising_instrs_graph.sublist h.ids)

/-- What is left names lower numbers than its own. -/
theorem Trimmed.lower (h : o.graph.Trimmed g) (ho : o.Valid) (hwf : o.graph.WellFormed) :
    ∀ i ∈ g.instrs, ∀ v ∈ i.values, v < i.id := by
  obtain ⟨f, hfrom⟩ := h.instr_of_mem hwf
  intro i' hi' v hv
  obtain ⟨i, hi, rfl⟩ := hfrom i' hi'
  rw [Instr.retarget_values] at hv
  exact ho.lower hi hv

/-- What is left has its values in scope when none of those it names was lost. -/
theorem Pruned.scoped_iff (h : o.graph.Pruned g) (ho : o.Valid) (hwf : o.graph.WellFormed) :
    Lower.Scoped [] g.instrs ↔ o.graph.GivesLive := by
  obtain ⟨f, hleft, hstays⟩ := h.instrs
  -- what is not left are branches, which name no value and give none
  have hbranch : ∀ i, o.graph.Lives i → i.op = .br → i.values = [] ∧ i.gives = [] := by
    rintro i ⟨b, block, hr, hblock, hi⟩ hop
    exact ((hwf.block_of_mem (hwf.mem_of_reaches hr) hblock).fits i hi).silent hop
  rw [Lower.scoped_iff_of_rising h.rising (h.lower ho hwf)]
  constructor
  · intro hall i hi v hv
    have hop : i.op ≠ .br := by
      intro hop
      rw [(hbranch i hi hop).1] at hv
      cases hv
    rcases hall _ (hstays i hi hop) v (by rwa [Instr.retarget_values]) with hnil | ⟨j', hj', hgives⟩
    · cases hnil
    · obtain ⟨j, hj, rfl⟩ := hleft j' hj'
      exact ⟨j, hj, hgives⟩
  · intro hall i' hi' v hv
    obtain ⟨i, hi, rfl⟩ := hleft i' hi'
    rw [Instr.retarget_values] at hv
    obtain ⟨j, hj, hgives⟩ := hall i hi v hv
    have hop : j.op ≠ .br := by
      intro hop
      rw [(hbranch j hj hop).2] at hgives
      cases hgives
    exact .inr ⟨j.retarget f, hstays j hj hop, hgives⟩

end Pruned

end Graph

/-! ## Simplified texts -/

namespace Settings

/-- A text that both passes simplify can be printed. What is printed is read when no value that
a path still names was given in a block that no path comes to, and only then. -/
theorem a_simplified_text_is_read_when_no_value_is_lost {s : Settings} {path : String}
    {text : List UInt8} {p' : Program} (hs : s.passes = Settings.default.passes)
    (h : s.optimize path text = .ok p') :
    ∃ p out, Text.read path text = .ok p ∧ Text.printFunctions p'.functions = .ok out ∧
      ∀ path', (∃ q, Text.read path' (Text.bytesOf out) = .ok q) ↔
        ∀ g ∈ p.functions, g.GivesLive := by
  obtain ⟨q, p, hq, hread, hruns, rfl⟩ := optimize_eq_ok.mp h
  have hboth := passes_of_default hq hs
  obtain ⟨-, os, hos, hvalid, hnames⟩ := Text.wellRead_of_read hread
  have hin : ∀ o ∈ os, o.graph ∈ p.functions := fun o ho => hos ▸ List.mem_map_of_mem ho
  have hwf : ∀ o ∈ os, o.graph.WellFormed := fun o ho =>
    (hvalid o ho).wellFormed (Pipeline.malformedBlock?_of_run hboth (hruns _ (hin o ho)))
  have hpruned : ∀ o ∈ os, o.graph.Pruned (q.run o.graph).state := fun o ho =>
    Pipeline.run_pruned hboth (hwf o ho)
  have hnodup : (os.map fun o => (q.run o.graph).state.name).Nodup := by
    rw [List.map_congr_left fun o ho => (hpruned o ho).name]
    exact hnames
  obtain ⟨out, hprint, hagain⟩ :=
    Text.read_printed (fun o ho => (hpruned o ho).labelled (hvalid o ho) (hwf o ho)) hnodup
  refine ⟨p, out, hread, ?_, fun path' => (hagain path').trans ?_⟩
  · rw [hos, List.map_map]
    exact hprint
  · rw [hos, List.forall_mem_map]
    refine forall₂_congr fun o ho => ?_
    have hlabelled := (hpruned o ho).labelled (hvalid o ho) (hwf o ho)
    exact (hlabelled.proper_iff (hpruned o ho).rising).trans
      ((hpruned o ho).scoped_iff (hvalid o ho) (hwf o ho))

/-- A program that names only values of its entry. One block only passes on, and one is dead. -/
def valuesKept : Program where
  path := "kept"
  functions := [
    Outline.graph {
      name := "f"
      blocks := [
        ("entry", [.arg 0, .const 3, .brif 0 3 2]),
        ("dead", [.binary .add 1 0, .br 3]),
        ("skip", [.br 3]),
        ("use", [.binary .sub 1 0, .ret [1]])]
      entry := some 0 }]

def valuesKeptText : List UInt8 :=
  Text.bytesOf ("func f \x7b\nentry:\n c = arg 0\n x = const 3\n brif c use skip\ndead:\n" ++
    " y = add x c\n br use\nskip:\n br use\nuse:\n r = sub x c\n ret x\n\x7d")

theorem a_simplified_text_is_read_when_its_entry_gives_the_values :
    Text.read "kept" valuesKeptText = .ok valuesKept ∧
      ∃ (p' : Program) (out : String) (q : Program),
        Settings.default.optimize "kept" valuesKeptText = .ok p' ∧
        Text.printFunctions p'.functions = .ok out ∧
        Text.read "again" (Text.bytesOf out) = .ok q := by
  have hread : Text.read "kept" valuesKeptText = .ok valuesKept := by decide +kernel
  have hwf : ∀ g ∈ valuesKept.functions, g.WellFormed := fun g hg =>
    Graph.fault?_eq_none.mp ((by decide +kernel : ∀ g ∈ valuesKept.functions, g.fault? = none) g hg)
  have hentry : ∀ g ∈ valuesKept.functions, g.entry = some 0 ∧ ∃ block ∈ g.block? 0,
      ∀ i ∈ g.instrs, ∀ v ∈ i.values, ∃ j ∈ block.code, v ∈ j.gives := by decide +kernel
  have hlive : ∀ g ∈ valuesKept.functions, g.GivesLive := by
    intro g hg i hi v hv
    obtain ⟨he, block, hblock, hgives⟩ := hentry g hg
    obtain ⟨j, hj, hvj⟩ := hgives i ((hwf g hg).mem_of_lives hi) v hv
    exact ⟨j, ⟨0, block, (hwf g hg).reaches_entry he, hblock, hj⟩, hvj⟩
  have hok : (Settings.default.optimize "kept" valuesKeptText).isOk = true := by decide +kernel
  cases h : Settings.default.optimize "kept" valuesKeptText with
  | error e =>
    rw [h] at hok
    cases hok
  | ok p' =>
    obtain ⟨p, out, hp, hprint, hagain⟩ := a_simplified_text_is_read_when_no_value_is_lost rfl h
    rw [hread] at hp
    cases hp
    obtain ⟨q, hq⟩ := (hagain "again").mpr hlive
    exact ⟨hread, p', out, q, rfl, hprint, hq⟩

/-- A text whose return names a value of a dead block. -/
def valueLostText : List UInt8 :=
  Text.bytesOf ("func f \x7b\nentry:\n br use\ndead:\n v = const 1\n br use\nuse:\n ret v\n\x7d")

/-- What the passes leave of it. -/
def valueLost : Program where
  path := "lost"
  functions := [
    { name := "f"
      slots := [none, none,
        some { id := 2, name := "use", code := [{ toAction := .ret [1], id := 3, block := 2 }] }]
      order := [2]
      entry := some 2
      nextValue := 4 }]

/-- The value is gone, and what is printed is not read. -/
theorem a_simplified_text_need_not_be_read :
    Settings.default.optimize "lost" valueLostText = .ok valueLost ∧
      Text.printFunctions valueLost.functions = .ok "func f \x7b\nuse:\n\tret v1\n\x7d\n" ∧
      Text.read "lost" (Text.bytesOf "func f \x7b\nuse:\n\tret v1\n\x7d\n") =
        .error (.instr "f" 3 (.undefinedValue "v1")) := by
  refine ⟨?_, ?_, ?_⟩
  · decide +kernel
  · decide +kernel
  · decide +kernel

end Settings

end FlowGraph

import FlowGraph.Proofs.Lexing
import FlowGraph.Text.Printer

/-!
The printed form of an outline, as tokens. Printing the graph of an outline
never fails, and gives a text of just these lines.
-/

namespace FlowGraph.Text

/-! ## The lines of an outline -/

def valueName (v : ValueId) : String := "v" ++ toString v

/-- The name that an operand is written with, where values have these names and blocks have
these labels. -/
def operandName (names : ValueId → String) (labels : List String) : Operand → String
  | .value v => names v
  | .block b => (labels[b.toNat]?).getD ""
  | .other _ => ""

/-- What stands between an operation and its operands. -/
def detailTokens (a : Action) : List Token :=
  match a.op with
  | .const | .arg => [.number a.imm]
  | .cmp => [.ident a.cond]
  | .call => [.ident a.sym]
  | _ => []

/-- The line of an action of a number. -/
def actionTokens (names : ValueId → String) (labels : List String) (id : ValueId) (a : Action) :
    List Token :=
  (if a.op.defines then [.ident (names id), .mark .equals] else []) ++
    .ident a.op.name ::
      (detailTokens a ++ a.args.map (fun x => .ident (operandName names labels x)))

/-- The lines of blocks, with actions numbered from `n` on. -/
def blockLines (names : ValueId → String) (labels : List String) :
    Nat → List (String × List Action) → List (List Token)
  | _, [] => []
  | n, (name, as) :: rest =>
    [.ident name, .mark .colon] ::
      ((as.zipIdx n).map (fun (a, i) => actionTokens names labels i a) ++
        blockLines names labels (n + as.length) rest)

/-- The label that a header names as the entry: none for the first block. -/
def entryLabel (o : Outline) : Option String :=
  o.entry.bind fun e => if e = 0 then none else o.labels[e]?

def headerTokens (o : Outline) : List Token :=
  .ident "func" :: .ident o.name ::
    (((entryLabel o).map fun l => [Token.ident "entry", .ident l]).getD [] ++ [.mark .openBrace])

def listing (names : ValueId → String) (o : Outline) : List (List Token) :=
  headerTokens o :: (blockLines names o.labels 0 o.blocks ++ [[.mark .closeBrace]])

/-! ## Names -/

theorem operandName_block {names : ValueId → String} {labels : List String} {k : Nat}
    (hk : k < labels.length) : operandName names labels (.block k) = labels[k] := by
  simp only [operandName, Int.toNat_natCast, List.getElem?_eq_getElem hk, Option.getD_some]

theorem isIdent_valueName (n : Nat) : IsIdent (valueName n) := by
  obtain ⟨-, hdigits, -⟩ := bytesOf_repr n
  refine ⟨0x76, bytesOf n.repr, by decide, fun b hb => isIdentRest_of_digit b (hdigits b hb), ?_⟩
  have happend : ∀ bs bs', asciiText (bs ++ bs') = asciiText bs ++ asciiText bs' := by
    simp [asciiText, String.ofList_append]
  rw [← List.singleton_append, happend, asciiText_bytesOf_repr]
  rfl

theorem valueName_inj {n m : Nat} (h : valueName n = valueName m) : n = m := by
  have hbytes := congrArg bytesOf h
  unfold valueName at hbytes
  rw [bytesOf_append, bytesOf_append, List.append_cancel_left_eq] at hbytes
  have hvalue := congrArg digitsValue hbytes
  have hn := (bytesOf_repr n).2.2
  have hm := (bytesOf_repr m).2.2
  exact hn.symm.trans (hvalue.trans hm)

/-! ## Instructions -/

theorem stops_blank (bs : List UInt8) : Stops (0x20 :: bs) := by
  intro c hc
  cases hc
  decide

theorem bytesOf_blank (s : String) : bytesOf (" " ++ s) = 0x20 :: bytesOf s := by
  rw [bytesOf_append, show bytesOf " " = [0x20] from rfl, List.singleton_append]

section Pieces

variable {bs : List UInt8} {ts : List Token}

/-- A name with a blank before it. -/
theorem lexed_name {n : String} (hn : IsIdent n) (h : Lexed bs ts) (hbs : Stops bs) :
    Lexed (bytesOf (" " ++ n) ++ bs) (.ident n :: ts) ∧ Stops (bytesOf (" " ++ n) ++ bs) := by
  rw [bytesOf_blank]
  exact ⟨.blank rfl (.ident hn h hbs), stops_blank _⟩

/-- A number with a blank before it. -/
theorem lexed_number (x : Int64) (h : Lexed bs ts) (hbs : Stops bs) :
    Lexed (bytesOf (" " ++ toString x.toInt) ++ bs) (.number x :: ts) ∧
      Stops (bytesOf (" " ++ toString x.toInt) ++ bs) := by
  rw [bytesOf_blank]
  exact ⟨.blank rfl (.number x h hbs), stops_blank _⟩

end Pieces

/-- Names with a blank before each. -/
theorem lexed_names {ns : List String} (h : ∀ n ∈ ns, IsIdent n) :
    Lexed (bytesOf (String.join (ns.map (" " ++ ·)))) (ns.map .ident) ∧
      Stops (bytesOf (String.join (ns.map (" " ++ ·)))) := by
  induction ns with
  | nil => exact ⟨.nil, by simp [Stops, bytesOf]⟩
  | cons n ns ih =>
    obtain ⟨hlexed, hstops⟩ := ih fun m hm => h m (List.mem_cons_of_mem n hm)
    rw [List.map_cons, String.join_cons, bytesOf_append]
    exact lexed_name (h n List.mem_cons_self) hlexed hstops

/-- The values and blocks that an action names have names. -/
def Printable (labels : List String) (a : Action) : Prop :=
  ∃ given, a.Proper labels.length given ∧ ∀ v, given v → ∃ n : Nat, v = n

/-- The graph has the blocks of these labels. -/
def HasLabels (g : Graph) (labels : List String) : Prop :=
  ∀ (k : Nat) n, labels[k]? = some n → ∃ b, g.block? k = some b ∧ b.name = n

/-- The graph has the blocks that the action names, by these labels. -/
def HasTargets (g : Graph) (labels : List String) (a : Action) : Prop :=
  ∀ (k : Nat) n, .block k ∈ a.args → labels[k]? = some n → ∃ b, g.block? k = some b ∧ b.name = n

theorem HasLabels.targets {g : Graph} {labels : List String} (h : HasLabels g labels) (a : Action) :
    HasTargets g labels a :=
  fun k n _ hn => h k n hn

theorem printOperand_eq {g : Graph} {labels : List String} (hlabels : ∀ n ∈ labels, IsIdent n)
    (i : Instr) {a : Action} (hg : HasTargets g labels a) (ha : Printable labels a) :
    ∀ x ∈ a.args, printOperand g i x = .ok (" " ++ operandName valueName labels x) ∧
      IsIdent (operandName valueName labels x) := by
  obtain ⟨given, hproper, hgiven⟩ := ha
  intro x hx
  rcases hproper.operands x hx with ⟨v, hv, rfl⟩ | ⟨k, hk, rfl⟩
  · obtain ⟨n, rfl⟩ := hgiven v hv
    exact ⟨rfl, isIdent_valueName n⟩
  · obtain ⟨b, hb, hbn⟩ := hg k _ hx (List.getElem?_eq_getElem hk)
    rw [operandName_block hk]
    refine ⟨?_, hlabels _ (List.getElem_mem hk)⟩
    simp only [printOperand, hb, hbn]

theorem isIdent_opName {op : Op} (h : op.isKnown = true) : IsIdent op.name := by
  cases op <;> first | decide +kernel | cases h

theorem isIdent_condName (c : Cond) : IsIdent c.name := by
  cases c <;> decide +kernel

/-- What stands between an operation and its operands is cut into its tokens. -/
theorem printDetail_eq {labels : List String} {i : Instr} (ha : Printable labels i.toAction) :
    ∃ d, printDetail i = .ok d ∧ ∀ bs ts, Lexed bs ts → Stops bs →
      Lexed (bytesOf d ++ bs) (detailTokens i.toAction ++ ts) ∧ Stops (bytesOf d ++ bs) := by
  obtain ⟨a, id, block⟩ := i
  obtain ⟨given, hproper, -⟩ := ha
  dsimp only at hproper
  cases hproper with
  | const x => exact ⟨_, rfl, fun bs ts h hbs => lexed_number x h hbs⟩
  | @arg x => exact ⟨_, rfl, fun bs ts h hbs => lexed_number x h hbs⟩
  | cmp c => exact ⟨_, rfl, fun bs ts h hbs => lexed_name (isIdent_condName c) h hbs⟩
  | call hf => exact ⟨_, rfl, fun bs ts h hbs => lexed_name hf h hbs⟩
  | br | brif | ret => exact ⟨"", rfl, fun bs ts h hbs => ⟨h, hbs⟩⟩
  | binary hop =>
    rcases hop with rfl | rfl | rfl <;> exact ⟨"", rfl, fun bs ts h hbs => ⟨h, hbs⟩⟩

/-- An instruction is printed as a line of its tokens. -/
theorem printInstr_eq {g : Graph} {labels : List String} (hlabels : ∀ n ∈ labels, IsIdent n)
    {i : Instr} {n : Nat} (hid : i.id = n) (hg : HasTargets g labels i.toAction)
    (ha : Printable labels i.toAction) :
    ∃ s, printInstr g i = .ok s ∧ IsText s [actionTokens valueName labels i.id i.toAction] := by
  obtain ⟨d, hd, hdetail⟩ := printDetail_eq ha
  have hop : IsIdent i.op.name := by
    obtain ⟨given, hproper, -⟩ := ha
    exact isIdent_opName hproper.known
  have hoperands := printOperand_eq hlabels i hg ha
  have hmap : i.args.mapM (printOperand g i) =
      .ok (i.args.map fun x => " " ++ operandName valueName labels x) :=
    mapM_eq_ok_map fun x hx => (hoperands x hx).1
  have hnames : ∀ m ∈ i.args.map (operandName valueName labels), IsIdent m := by
    intro m hm
    obtain ⟨x, hx, rfl⟩ := List.mem_map.mp hm
    exact (hoperands x hx).2
  obtain ⟨hrest, hstops⟩ := lexed_names hnames
  rw [List.map_map, List.map_map] at hrest
  rw [List.map_map] at hstops
  obtain ⟨hrest, hstops⟩ := hdetail _ _ hrest hstops
  -- the operation and all after it
  have hline := Lexed.ident hop hrest hstops
  unfold printInstr
  rw [hd, hmap]
  refine ⟨_, rfl, IsText.line ?_⟩
  unfold actionTokens
  simp only [bytesOf_append, List.append_assoc]
  rw [show bytesOf "\t" = [0x09] from rfl, List.singleton_append]
  refine .blank rfl ?_
  cases i.op.defines with
  | false => exact hline
  | true =>
    rw [hid]
    have hequals : bytesOf " = " = [0x20, 0x3d, 0x20] := rfl
    simp only [if_true, bytesOf_append, hequals, List.append_assoc]
    rw [← List.append_assoc, ← bytesOf_append]
    exact .ident (isIdent_valueName n) (.blank rfl (.mark rfl (.blank rfl hline))) (stops_blank _)

/-! ## Blocks -/

theorem isText_label {name : String} (h : IsIdent name) :
    IsText (name ++ ":\n") [[.ident name, .mark .colon]] := by
  rw [show name ++ ":\n" = name ++ ":" ++ "\n" by rw [String.append_assoc]; rfl]
  refine .line ?_
  rw [bytesOf_append, show bytesOf ":" = [0x3a] from rfl]
  refine .ident h (.mark rfl .nil) ?_
  intro c hc
  cases hc
  decide

section Blocks

variable {g : Graph} {labels : List String} (hg : HasLabels g labels)
  (hlabels : ∀ n ∈ labels, IsIdent n)

include hg hlabels

theorem printCode_eq (k n : Nat) {as : List Action} (has : ∀ a ∈ as, Printable labels a) :
    ∃ ss, (numbered k n as).mapM (printInstr g) = .ok ss ∧
      IsText (String.join ss)
        ((as.zipIdx n).map fun (a, i) => actionTokens valueName labels i a) := by
  induction as generalizing n with
  | nil => exact ⟨[], rfl, .nil⟩
  | cons a as ih =>
    obtain ⟨ss, hss, htext⟩ := ih (n + 1) fun b hb => has b (List.mem_cons_of_mem a hb)
    obtain ⟨s, hs, hline⟩ := printInstr_eq hlabels (i := { toAction := a, id := n, block := k })
      rfl (hg.targets a) (has a List.mem_cons_self)
    refine ⟨s :: ss, ?_, ?_⟩
    · show ({ toAction := a, id := (n : Int), block := (k : Int) } :: numbered k (n + 1) as).mapM
        (printInstr g) = _
      rw [List.mapM_cons, hs, hss]
      rfl
    · rw [String.join_cons]
      exact hline.append htext

theorem printBlocks_eq (k n : Nat) {bs : List (String × List Action)}
    (hbs : ∀ e ∈ bs, IsIdent e.1 ∧ ∀ a ∈ e.2, Printable labels a) :
    ∃ ss, (blocksFrom k n bs).mapM (printBlock g) = .ok ss ∧
      IsText (String.join ss) (blockLines valueName labels n bs) := by
  induction bs generalizing k n with
  | nil => exact ⟨[], rfl, .nil⟩
  | cons e bs ih =>
    obtain ⟨name, as⟩ := e
    obtain ⟨hname, has⟩ := hbs _ List.mem_cons_self
    obtain ⟨ss, hss, htext⟩ :=
      ih (k + 1) (n + as.length) fun e' he' => hbs e' (List.mem_cons_of_mem _ he')
    obtain ⟨lines, hlines, hcode⟩ := printCode_eq hg hlabels k n has
    refine ⟨(name ++ ":\n" ++ String.join lines) :: ss, ?_, ?_⟩
    · have hblock : printBlock g { id := k, name := name, code := numbered k n as } =
          .ok (name ++ ":\n" ++ String.join lines) := by
        unfold printBlock
        rw [hlines]
      rw [blocksFrom, List.mapM_cons, hblock, hss]
      rfl
    · rw [String.join_cons]
      exact ((isText_label hname).append hcode).append htext

end Blocks

/-! ## Functions -/

theorem hasLabels_graph (o : Outline) : HasLabels o.graph o.labels := by
  intro k n hn
  unfold Outline.labels at hn
  rw [← map_name_blocksFrom 0 0 o.blocks, List.getElem?_map, Option.map_eq_some_iff] at hn
  rw [Outline.block?_graph]
  exact hn

theorem printable_of_valid {o : Outline} (h : o.Valid) :
    ∀ e ∈ o.blocks, IsIdent e.1 ∧ ∀ a ∈ e.2, Printable o.labels a := by
  intro e he
  refine ⟨h.labels e.1 (List.mem_map_of_mem he), ?_⟩
  intro a ha
  obtain ⟨i, hi⟩ := List.mem_iff_getElem?.mp (List.mem_flatMap.mpr ⟨e, he, ha⟩ : a ∈ o.actions)
  refine ⟨Gives (o.actions.take i), ?_, ?_⟩
  · have := h.proper i a hi
    rwa [← o.length_labels] at this
  · rintro v ⟨j, -, -, -, rfl⟩
    exact ⟨j, rfl⟩

/-- The header names the entry unless it is the first block. -/
theorem printEntry_eq {o : Outline} (h : o.Valid) :
    printEntry o.graph = ((entryLabel o).map fun l => " entry " ++ l).getD "" := by
  obtain ⟨e, he, hlt⟩ := h.entry
  have hlen : e < o.labels.length := by rwa [o.length_labels]
  obtain ⟨b, hb, hname⟩ := hasLabels_graph o e _ (List.getElem?_eq_getElem hlen)
  have hentry : o.graph.entry = some (e : Int) := by
    show o.entry.map Int.ofNat = _
    rw [he]
    rfl
  have horder : o.graph.order.head? = some 0 := by
    obtain ⟨k, hk⟩ : ∃ k, o.blocks.length = k + 1 := ⟨o.blocks.length - 1, by omega⟩
    show ((List.range o.blocks.length).map Int.ofNat).head? = _
    rw [hk, List.range_succ_eq_map]
    rfl
  have hne : o.graph.order.isEmpty = false := by
    cases hnil : o.graph.order with
    | nil =>
      rw [hnil] at horder
      cases horder
    | cons x l => rfl
  -- the blocks are listed in the order of their numbers, so the first is block zero
  unfold printEntry entryLabel Graph.entryBlock?
  rw [hentry, Option.bind_some, hb, horder, hne, he, Option.bind_some]
  cases e with
  | zero => rfl
  | succ e =>
    have hzero : ¬ ((false = true) ∨ some (0 : Int) = some ((e + 1 : Nat) : Int)) := by
      simp
      omega
    rw [if_neg (Nat.succ_ne_zero e), List.getElem?_eq_getElem hlen]
    dsimp only
    rw [if_neg hzero, hname]
    rfl

theorem entryLabel_isIdent {o : Outline} (h : o.Valid) {l : String} (hl : entryLabel o = some l) :
    IsIdent l := by
  unfold entryLabel at hl
  obtain ⟨e, -, hl⟩ := Option.bind_eq_some_iff.mp hl
  split at hl
  · cases hl
  · exact h.labels l (List.mem_of_getElem? hl)

theorem isText_headerLine {name : String} (hname : IsIdent name) {entry : Option String}
    (hentry : ∀ l, entry = some l → IsIdent l) :
    IsText ("func " ++ name ++ (entry.map fun l => " entry " ++ l).getD "" ++ " \x7b\n")
      [.ident "func" :: .ident name ::
        ((entry.map fun l => [Token.ident "entry", .ident l]).getD [] ++ [.mark .openBrace])] := by
  generalize hs : (entry.map fun l => " entry " ++ l).getD "" = s
  have hbrace : Lexed (bytesOf " \x7b") [.mark .openBrace] := by
    rw [show bytesOf " \x7b" = [0x20, 0x7b] from rfl]
    exact .blank rfl (.mark rfl .nil)
  have hstops : Stops (bytesOf " \x7b") := by
    rw [show bytesOf " \x7b" = [0x20, 0x7b] from rfl]
    exact stops_blank _
  have hentry : Lexed (bytesOf s ++ bytesOf " \x7b")
      ((entry.map fun l => [Token.ident "entry", .ident l]).getD [] ++ [.mark .openBrace]) ∧
      Stops (bytesOf s ++ bytesOf " \x7b") := by
    subst hs
    cases entry with
    | none => exact ⟨hbrace, hstops⟩
    | some l =>
      obtain ⟨hlabel, hlabel'⟩ := lexed_name (hentry l rfl) hbrace hstops
      have hkey : IsIdent "entry" := by decide +kernel
      have hsplit : " entry " ++ l = " " ++ "entry" ++ (" " ++ l) := by
        rw [← String.append_assoc]
        rfl
      have hboth := lexed_name hkey hlabel hlabel'
      rw [← List.append_assoc, ← bytesOf_append, ← hsplit] at hboth
      exact hboth
  have hfunc : IsIdent "func" := by decide +kernel
  -- the line is put together from its end
  have hline := Lexed.ident hfunc (.blank rfl (.ident hname hentry.1 hentry.2)) (stops_blank _)
  have hsplit : "func " ++ name ++ s ++ " \x7b\n" =
      "func" ++ (" " ++ name) ++ s ++ " \x7b" ++ "\n" := by
    simp only [String.append_assoc]
    rw [show "func " = "func" ++ " " from rfl, String.append_assoc]
    rfl
  rw [hsplit]
  refine .line ?_
  simp only [bytesOf_append _ " \x7b", bytesOf_append _ s, bytesOf_append "func", bytesOf_blank,
    List.append_assoc]
  exact hline

theorem isText_closing : IsText "\x7d\n" [[.mark .closeBrace]] := by
  refine .line (s := "\x7d") ?_
  rw [show bytesOf "\x7d" = [0x7d] from rfl]
  exact .mark rfl .nil

theorem isText_header {o : Outline} (h : o.Valid) :
    IsText ("func " ++ o.name ++ printEntry o.graph ++ " \x7b\n") [headerTokens o] := by
  rw [printEntry_eq h]
  exact isText_headerLine h.name fun _ hl => entryLabel_isIdent h hl

theorem printGraph_eq {o : Outline} (h : o.Valid) :
    ∃ s, printGraph o.graph = .ok s ∧ IsText s (listing valueName o) := by
  obtain ⟨ss, hss, hblocks⟩ :=
    printBlocks_eq (hasLabels_graph o) h.labels 0 0 (printable_of_valid h)
  unfold printGraph
  rw [Outline.blocks_graph, hss]
  refine ⟨_, rfl, ?_⟩
  exact ((isText_header h).append hblocks).append isText_closing

/-! ## Programs -/

theorem actionTokens_ne_nil (names : ValueId → String) (labels : List String) (id : ValueId)
    (a : Action) : actionTokens names labels id a ≠ [] := by
  unfold actionTokens
  split <;> simp

theorem blockLines_ne_nil (names : ValueId → String) (labels : List String) (n : Nat)
    (bs : List (String × List Action)) : ∀ ts ∈ blockLines names labels n bs, ts ≠ [] := by
  induction bs generalizing n with
  | nil => simp [blockLines]
  | cons e bs ih =>
    obtain ⟨name, as⟩ := e
    intro ts hts
    rw [blockLines, List.mem_cons, List.mem_append] at hts
    rcases hts with rfl | hts | hts
    · simp
    · obtain ⟨⟨a, i⟩, -, rfl⟩ := List.mem_map.mp hts
      exact actionTokens_ne_nil names labels i a
    · exact ih _ ts hts

theorem listing_ne_nil (names : ValueId → String) (o : Outline) :
    ∀ ts ∈ listing names o, ts ≠ [] := by
  intro ts hts
  unfold listing at hts
  rw [List.mem_cons, List.mem_append, List.mem_singleton] at hts
  rcases hts with rfl | hts | rfl
  · simp [headerTokens]
  · exact blockLines_ne_nil _ _ _ _ ts hts
  · simp

theorem isText_intercalate {ss : List String} {tsss : List (List (List Token))}
    (h : List.Forall₂ IsText ss tsss) :
    ∃ tss, IsText ("\n".intercalate ss) tss ∧
      tss.filter (fun ts => !ts.isEmpty) = tsss.flatten.filter (fun ts => !ts.isEmpty) := by
  induction h with
  | nil => exact ⟨[], .nil, rfl⟩
  | @cons s tss ss tsss hone hrest ih =>
    cases hrest with
    | nil => exact ⟨tss, by simpa using hone, by simp⟩
    | @cons t tss' ss tsss htwo hrest =>
      obtain ⟨tss'', htext, hfilter⟩ := ih
      -- the line between two functions has no tokens
      have hempty : IsText "\n" [[]] := .line (s := "") .nil
      refine ⟨tss ++ [[]] ++ tss'', ?_, ?_⟩
      · rw [String.intercalate_cons_cons]
        exact (hone.append hempty).append htext
      · rw [List.flatten_cons, List.filter_append, List.filter_append, hfilter,
          List.filter_append]
        simp

section Texts

variable {α : Type} {graph : α → Graph} {lines : α → List (List Token)} {xs : List α}

theorem mapM_printGraph
    (h : ∀ x ∈ xs, ∃ s, printGraph (graph x) = .ok s ∧ IsText s (lines x)) :
    ∃ ss, (xs.map graph).mapM (fun g => (printGraph g).mapError (g.name, ·)) = .ok ss ∧
      List.Forall₂ IsText ss (xs.map lines) := by
  induction xs with
  | nil => exact ⟨[], rfl, .nil⟩
  | cons x xs ih =>
    obtain ⟨⟨s, hs, htext⟩, hrest⟩ := List.forall_mem_cons.mp h
    obtain ⟨ss, hss, htexts⟩ := ih hrest
    refine ⟨s :: ss, ?_, .cons htext htexts⟩
    rw [List.map_cons, List.mapM_cons, hs, hss]
    rfl

/-- Functions that are printed one by one are printed with an empty line between them. -/
theorem printFunctions_of_texts
    (h : ∀ x ∈ xs, ∃ s, printGraph (graph x) = .ok s ∧ IsText s (lines x))
    (hlines : ∀ x ∈ xs, ∀ ts ∈ lines x, ts ≠ []) :
    ∃ s tss, printFunctions (xs.map graph) = .ok s ∧ IsText s tss ∧
      tss.filter (fun ts => !ts.isEmpty) = xs.flatMap lines := by
  obtain ⟨ss, hss, htexts⟩ := mapM_printGraph h
  obtain ⟨tss, htext, hfilter⟩ := isText_intercalate htexts
  refine ⟨"\n".intercalate ss, tss, ?_, htext, ?_⟩
  · unfold printFunctions
    rw [hss]
    rfl
  · rw [hfilter, ← List.flatMap_def, List.filter_eq_self]
    intro ts hts
    obtain ⟨x, hx, hts⟩ := List.mem_flatMap.mp hts
    simpa using hlines x hx ts hts

end Texts

/-- Printing valid outlines never fails, and gives their lines with an empty one between
functions. -/
theorem printFunctions_eq {os : List Outline} (h : ∀ o ∈ os, o.Valid) :
    ∃ s tss, printFunctions (os.map Outline.graph) = .ok s ∧ IsText s tss ∧
      tss.filter (fun ts => !ts.isEmpty) = os.flatMap (listing valueName) :=
  printFunctions_of_texts (fun o ho => printGraph_eq (h o ho)) fun o _ =>
    listing_ne_nil valueName o

end FlowGraph.Text

import FlowGraph.Proofs.Listing
import FlowGraph.Proofs.Reading

/-!
Reading what is printed gives it back. The lines of a valid outline are read to
its graph, whatever names the values had before. So a program that was read
from a text is printed, and read again from what is printed, without a change.
-/

namespace FlowGraph.Text

/-! ## Names of values -/

section Names

variable {names : ValueId → String} {as : List Action}

/-- The first `n` values have names of their own. -/
def Apart (names : ValueId → String) (n : Nat) : Prop :=
  ∀ i j : Nat, i < n → j < n → names i = names j → i = j

theorem Apart.mono {n m : Nat} (h : Apart names n) (hm : m ≤ n) : Apart names m :=
  fun i j hi hj => h i j (Nat.lt_of_lt_of_le hi hm) (Nat.lt_of_lt_of_le hj hm)

theorem apart_valueName (n : Nat) : Apart valueName n :=
  fun _ _ _ _ => valueName_inj

/-- The name that an action of this number gives its value. -/
def givenName (names : ValueId → String) (n : Nat) (a : Action) : Option String :=
  if a.op.defines then some (names n) else none

def valuesOf (names : ValueId → String) (as : List Action) : List (String × ValueId) :=
  as.zipIdx.filterMap fun (a, i) => (givenName names i a).map (·, (i : Int))

theorem valuesOf_snoc (as : List Action) (a : Action) :
    valuesOf names (as ++ [a]) =
      valuesOf names as ++ ((givenName names as.length a).map (·, (as.length : Int))).toList := by
  unfold valuesOf
  rw [List.zipIdx_append, List.filterMap_append]
  congr 1
  simp only [List.zipIdx_cons, List.zipIdx_nil, Nat.zero_add, List.filterMap_cons,
    List.filterMap_nil]
  cases givenName names as.length a <;> rfl

theorem mem_valuesOf {n : String} {v : ValueId} :
    (n, v) ∈ valuesOf names as ↔ Gives as v ∧ n = names v := by
  unfold valuesOf
  rw [List.mem_filterMap]
  constructor
  · rintro ⟨⟨a, i⟩, hmem, heq⟩
    obtain ⟨m, hm, hpair⟩ := Option.map_eq_some_iff.mp heq
    cases hpair
    unfold givenName at hm
    split at hm
    · rename_i hdefines
      cases hm
      exact ⟨⟨i, a, List.mk_mem_zipIdx_iff_getElem?.mp hmem, hdefines, rfl⟩, rfl⟩
    · cases hm
  · rintro ⟨⟨j, a, hj, hdefines, rfl⟩, rfl⟩
    refine ⟨(a, j), List.mk_mem_zipIdx_iff_getElem?.mpr hj, ?_⟩
    simp [givenName, hdefines]

/-- A name stands for its value. -/
theorem lookup_valuesOf (hnames : Apart names as.length) {v : ValueId} (h : Gives as v) :
    (valuesOf names as).lookup (names v) = some v := by
  have hsome : ((valuesOf names as).lookup (names v)).isSome = true :=
    isSome_lookup.mpr (List.mem_map.mpr ⟨(names v, v), mem_valuesOf.mpr ⟨h, rfl⟩, rfl⟩)
  obtain ⟨w, hw⟩ := Option.isSome_iff_exists.mp hsome
  obtain ⟨⟨i, _, hi, -, rfl⟩, hname⟩ := mem_valuesOf.mp (mem_of_lookup hw)
  obtain ⟨j, _, hj, -, rfl⟩ := h
  have hlt := (List.getElem?_eq_some_iff.mp hi).1
  rw [hw, hnames j i (List.getElem?_eq_some_iff.mp hj).1 hlt hname]

/-- The name of the next value is new. -/
theorem lookup_valuesOf_length (hnames : Apart names (as.length + 1)) :
    (valuesOf names as).lookup (names as.length) = none := by
  rw [Option.eq_none_iff_forall_ne_some]
  intro w hw
  obtain ⟨⟨i, a, hi, -, rfl⟩, hname⟩ := mem_valuesOf.mp (mem_of_lookup hw)
  have hlt := (List.getElem?_eq_some_iff.mp hi).1
  have := hnames as.length i (Nat.lt_succ_self _) (Nat.lt_succ_of_lt hlt) hname
  omega

end Names

/-! ## Instructions -/

section Instructions

variable {names : ValueId → String} {labels : List String} {as : List Action}

/-- The names in scope after the lines of actions were read. -/
def printedScope (names : ValueId → String) (labels : List String) (as : List Action) : Scope :=
  { labels := labelsOf labels, values := valuesOf names as }

theorem value_printed (hnames : Apart names as.length) {v : ValueId} (h : Gives as v) :
    (printedScope names labels as).value (.ident (names v)) = .ok v := by
  unfold Scope.value
  dsimp only
  rw [show (printedScope names labels as).values = valuesOf names as from rfl,
    lookup_valuesOf hnames h]

theorem values_printed (hnames : Apart names as.length) {vs : List ValueId}
    (h : ∀ v ∈ vs, Gives as v) :
    ((vs.map Operand.value).map fun x => Token.ident (operandName names labels x)).mapM
      (printedScope names labels as).value = .ok vs := by
  rw [mapM_eq_ok, List.forall₂_map_left_iff, List.forall₂_map_left_iff, List.forall₂_same]
  exact fun v hv => value_printed hnames (h v hv)

theorem label_printed (hlabels : labels.Nodup) {k : Nat} (hk : k < labels.length) :
    (printedScope names labels as).label (.ident (operandName names labels (.block k))) =
      .ok (k : Int) := by
  have hlookup : (printedScope names labels as).labels.lookup labels[k] = some (k : Int) :=
    (lookup_labelsOf hlabels).mpr ⟨k, List.getElem?_eq_getElem hk, rfl⟩
  unfold Scope.label
  dsimp only
  rw [operandName_block hk, hlookup]

theorem readAction_printed (hnames : Apart names as.length) (hlabels : labels.Nodup) {a : Action}
    (ha : a.Proper labels.length (Gives as)) :
    readAction (printedScope names labels as) a.op
      (detailTokens a ++ a.args.map fun x => .ident (operandName names labels x)) = .ok a := by
  apply Scope.ReadsTo.readAction
  cases ha with
  | const x => exact .const x
  | arg hx => exact .arg hx
  | binary hop hx hy =>
    rcases hop with rfl | rfl | rfl
    · exact .binary (.inl rfl) (value_printed hnames hx) (value_printed hnames hy)
    · exact .binary (.inr (.inl rfl)) (value_printed hnames hx) (value_printed hnames hy)
    · exact .binary (.inr (.inr rfl)) (value_printed hnames hx) (value_printed hnames hy)
  | cmp c hx hy => exact .cmp c (value_printed hnames hx) (value_printed hnames hy)
  | call hf hvs => exact .call _ (values_printed hnames hvs)
  | br hb => exact .br (label_printed hlabels hb)
  | brif hc hyes hno =>
    exact .brif (value_printed hnames hc) (label_printed hlabels hyes) (label_printed hlabels hno)
  | ret hlen hvs =>
    exact .ret (by simpa [detailTokens, Action.ret] using hlen) (values_printed hnames hvs)

theorem mark_notMem_operands (names : ValueId → String) (labels : List String) (a : Action)
    (m : Mark) :
    .mark m ∉ detailTokens a ++ a.args.map (fun x => Token.ident (operandName names labels x)) := by
  unfold detailTokens
  split <;> simp

/-- The line of an action is read to the action. -/
theorem readInstr_printed (hnames : Apart names (as.length + 1)) (hlabels : labels.Nodup)
    {a : Action} (ha : a.Proper labels.length (Gives as)) :
    readInstr (printedScope names labels as) (actionTokens names labels as.length a) =
      .ok (givenName names as.length a, a) := by
  have hbefore := hnames.mono (Nat.le_succ as.length)
  have hop : ∀ named, (named = true → a.op.defines = true) →
      readOperation (printedScope names labels as) named (.ident a.op.name ::
        (detailTokens a ++ a.args.map fun x => .ident (operandName names labels x))) = .ok a := by
    intro named hnamed
    unfold readOperation
    dsimp only
    rw [Op.ofName?_name ha.known]
    dsimp only
    rw [if_neg ?_, readAction_printed hbefore hlabels ha]
    cases named with
    | false => simp
    | true => simp [hnamed rfl]
  unfold actionTokens givenName
  cases hdefines : a.op.defines with
  | true =>
    have hnew :
        ¬ ((printedScope names labels as).values.lookup (names as.length)).isSome = true := by
      rw [show (printedScope names labels as).values = valuesOf names as from rfl,
        lookup_valuesOf_length hnames]
      simp
    rw [if_pos rfl, if_pos rfl]
    unfold readInstr
    simp only [List.cons_append, List.nil_append]
    rw [if_neg hnew, hop true fun _ => hdefines]
    rfl
  | false =>
    -- without an equals sign the line cannot be taken for one that names its value
    have hmarks := mark_notMem_operands names labels a .equals
    have hop := hop false (by simp)
    generalize (detailTokens a ++ a.args.map fun x => Token.ident (operandName names labels x)) =
      ts at *
    rw [if_neg (by simp), if_neg (by simp), List.nil_append]
    unfold readInstr
    split
    · rename_i heq
      cases heq
      exact absurd List.mem_cons_self hmarks
    · rename_i heq
      cases heq
      exact absurd List.mem_cons_self hmarks
    · rw [hop]
      rfl

/-- The line of an action is no label and no closing brace. -/
theorem actionTokens_shape {a : Action} {n : ValueId} {l : Line}
    (hl : l.tokens = actionTokens names labels n a) : l.label? = none ∧ l.isClosing = false := by
  have hmarks := mark_notMem_operands names labels a .colon
  unfold Line.label? Line.isClosing
  rw [hl]
  unfold actionTokens
  generalize (detailTokens a ++ a.args.map fun x => Token.ident (operandName names labels x)) =
    ts at *
  cases a.op.defines with
  | true => exact ⟨rfl, rfl⟩
  | false =>
    refine ⟨?_, by simp⟩
    split
    · rename_i heq
      cases heq
      exact absurd List.mem_cons_self hmarks
    · rfl

end Instructions

/-! ## Bodies -/

section Bodies

variable {names : ValueId → String} {labels : List String} (name : String) (entry : Option Nat)

/-- The lines of actions are read one after the other into the block of the last label. -/
theorem foldlM_actions (hlabels : labels.Nodup) {bs : List (String × List Action)} {n : String}
    {ahead : List String} (hall : bs.map (·.1) ++ n :: ahead = labels) (as' as : List Action)
    (hnames : Apart names (bs.flatMap (·.2) ++ as ++ as').length)
    (hproper : ProperAll labels.length (bs.flatMap (·.2) ++ as ++ as')) {ls : List Line}
    (hls : ls.map (·.tokens) = (as'.zipIdx (bs.flatMap (·.2) ++ as).length).map
      fun (a, i) => actionTokens names labels i a) :
    ls.foldlM Draft.step
        (draftAt ⟨name, bs ++ [(n, as)], entry⟩ ahead (valuesOf names (bs.flatMap (·.2) ++ as))) =
      .ok (draftAt ⟨name, bs ++ [(n, as ++ as')], entry⟩ ahead
        (valuesOf names (bs.flatMap (·.2) ++ as ++ as'))) := by
  -- on the actions to come; what is read so far stands in `bs` and `as`
  induction as' generalizing as ls with
  | nil =>
    obtain rfl : ls = [] := by simpa using hls
    simp only [List.append_nil]
    rfl
  | cons a as' ih =>
    rw [List.zipIdx_cons, List.map_cons] at hls
    obtain ⟨l, ls, rfl, hl, hls⟩ := List.map_eq_cons_iff.mp hls
    dsimp only at hl
    have ha : a.Proper labels.length (Gives (bs.flatMap (·.2) ++ as)) := by
      have := hproper (bs.flatMap (·.2) ++ as).length a (by simp)
      rwa [List.take_left] at this
    have hscope : (draftAt ⟨name, bs ++ [(n, as)], entry⟩ ahead
        (valuesOf names (bs.flatMap (·.2) ++ as))).scope =
        printedScope names labels (bs.flatMap (·.2) ++ as) := by
      simp [draftAt, printedScope, Outline.labels, ← hall]
    have hcount : (bs.flatMap (·.2) ++ as).length + 1 ≤
        (bs.flatMap (·.2) ++ as ++ a :: as').length := by
      rw [List.length_append, List.length_append, List.length_append, List.length_cons]
      omega
    have hread := readInstr_printed (hnames.mono hcount) hlabels ha
    rw [← hscope, ← hl] at hread
    rw [List.foldlM_cons, step_instr (actionTokens_shape hl).1 hread, ← valuesOf_snoc]
    have hls' : ls.map (·.tokens) = (as'.zipIdx (bs.flatMap (·.2) ++ (as ++ [a])).length).map
        fun (a, i) => actionTokens names labels i a := by
      simpa [Nat.add_assoc] using hls
    have hnext := ih (as ++ [a]) (by simpa using hnames) (by simpa using hproper) hls'
    simp only [List.append_assoc, List.singleton_append] at hnext ⊢
    exact hnext

theorem foldlM_blocks (hlabels : labels.Nodup) (rest bs : List (String × List Action))
    (hall : bs.map (·.1) ++ rest.map (·.1) = labels)
    (hnames : Apart names (bs.flatMap (·.2) ++ rest.flatMap (·.2)).length)
    (hproper : ProperAll labels.length (bs.flatMap (·.2) ++ rest.flatMap (·.2))) {ls : List Line}
    (hls : ls.map (·.tokens) = blockLines names labels (bs.flatMap (·.2)).length rest) :
    ls.foldlM Draft.step
        (draftAt ⟨name, bs, entry⟩ (rest.map (·.1)) (valuesOf names (bs.flatMap (·.2)))) =
      .ok (draftAt ⟨name, bs ++ rest, entry⟩ []
        (valuesOf names (bs.flatMap (·.2) ++ rest.flatMap (·.2)))) := by
  induction rest generalizing bs ls with
  | nil =>
    obtain rfl : ls = [] := by simpa [blockLines] using hls
    simp only [List.append_nil, List.flatMap_nil]
    rfl
  | cons e rest ih =>
    obtain ⟨n, as⟩ := e
    rw [blockLines] at hls
    obtain ⟨l, ls, rfl, hl, hls⟩ := List.map_eq_cons_iff.mp hls
    obtain ⟨ls₁, ls₂, rfl, hls₁, hls₂⟩ := List.map_eq_append_iff.mp hls
    rw [List.map_cons] at hall
    rw [List.flatMap_cons, ← List.append_assoc] at hproper hnames
    have hlabel : l.label? = some n := by
      unfold Line.label?
      rw [hl]
    have hnodup : (Outline.labels ⟨name, bs, entry⟩ ++ n :: rest.map (·.1)).Nodup := by
      unfold Outline.labels
      rw [hall]
      exact hlabels
    have hbefore : ProperAll labels.length (bs.flatMap (·.2) ++ [] ++ as) := by
      simpa using hproper.left
    have hactions := foldlM_actions name entry hlabels hall as [] (hnames.mono (by simp)) hbefore
      (by simpa using hls₁)
    have hnext := ih (bs ++ [(n, as)]) (by simpa using hall) (by simpa using hnames)
      (by simpa using hproper) (by simpa using hls₂)
    simp only [List.append_nil, List.nil_append] at hactions
    simp only [List.flatMap_append, List.flatMap_singleton, List.append_assoc,
      List.singleton_append] at hnext
    rw [List.foldlM_cons, List.map_cons, step_label hnodup hlabel]
    show (ls₁ ++ ls₂).foldlM Draft.step _ = _
    rw [List.foldlM_append, hactions]
    exact hnext

end Bodies

/-- The labels among the lines of blocks. No such line closes the function. -/
theorem labelNames_blockLines {names : ValueId → String} {labels : List String} {n : Nat}
    {bs : List (String × List Action)} {ls : List Line}
    (hls : ls.map (·.tokens) = blockLines names labels n bs) :
    labelNames ls = bs.map (·.1) ∧ ∀ l ∈ ls, l.isClosing = false := by
  induction bs generalizing n ls with
  | nil =>
    obtain rfl : ls = [] := by simpa [blockLines] using hls
    exact ⟨rfl, by simp⟩
  | cons e bs ih =>
    obtain ⟨name, as⟩ := e
    rw [blockLines] at hls
    obtain ⟨l, ls, rfl, hl, hls⟩ := List.map_eq_cons_iff.mp hls
    obtain ⟨ls₁, ls₂, rfl, hls₁, hls₂⟩ := List.map_eq_append_iff.mp hls
    obtain ⟨hnames, hclosing⟩ := ih hls₂
    have hlabel : l.label? = some name ∧ l.isClosing = false := by
      unfold Line.label? Line.isClosing
      rw [hl]
      exact ⟨rfl, rfl⟩
    have hactions : ∀ l' ∈ ls₁, l'.label? = none ∧ l'.isClosing = false := by
      intro l' hl'
      have hmem : l'.tokens ∈ ls₁.map (·.tokens) := List.mem_map_of_mem hl'
      rw [hls₁] at hmem
      obtain ⟨⟨a, i⟩, -, heq⟩ := List.mem_map.mp hmem
      exact actionTokens_shape heq.symm
    have hnone : labelNames ls₁ = [] :=
      List.filterMap_eq_nil_iff.mpr fun l' hl' => (hactions l' hl').1
    constructor
    · rw [labelNames_cons_some hlabel.1, labelNames_append, hnone, hnames]
      rfl
    · intro l' hl'
      rcases List.mem_cons.mp hl' with rfl | hl'
      · exact hlabel.2
      · rcases List.mem_append.mp hl' with hl' | hl'
        · exact (hactions l' hl').2
        · exact hclosing l' hl'

/-! ## Functions -/

theorem readHeader_headerTokens (o : Outline) :
    readHeader (headerTokens o) = .ok (o.name, entryLabel o) := by
  unfold headerTokens
  cases entryLabel o <;> simp [readHeader]

/-- The entry that a header names, or that stands first, is the entry of the outline. -/
theorem enter_entryLabel {o : Outline} (h : o.Valid) (header : Line) :
    (declared o.name o.labels).enter header (entryLabel o) =
      .ok (draftAt ⟨o.name, [], o.entry⟩ o.labels []) := by
  obtain ⟨e, he, hlt⟩ := h.entry
  have hlen : e < o.labels.length := by rwa [o.length_labels]
  unfold entryLabel
  rw [he, Option.bind_some]
  cases e with
  | zero =>
    obtain ⟨n, rest, hlabels⟩ := List.exists_cons_of_length_pos hlen
    -- nothing is named, and the first block declared is the entry
    rw [if_pos rfl, hlabels]
    rfl
  | succ e =>
    have hlookup : (declared o.name o.labels).scope.labels.lookup (o.labels[e + 1]) =
        some ((e + 1 : Nat) : Int) :=
      (lookup_labelsOf h.nodup).mpr ⟨e + 1, List.getElem?_eq_getElem hlen, rfl⟩
    rw [if_neg (Nat.succ_ne_zero e), List.getElem?_eq_getElem hlen]
    unfold Draft.enter
    dsimp only
    rw [hlookup]
    rfl

theorem readBody_blockLines {o : Outline} (h : o.Valid) {names : ValueId → String}
    (hapart : Apart names o.actions.length) (header : Line) {body : List Line}
    (hbody : body.map (·.tokens) = blockLines names o.labels 0 o.blocks) :
    readBody header o.name (entryLabel o) body = .ok o.graph := by
  obtain ⟨hnames, -⟩ := labelNames_blockLines hbody
  have hlabels : labelNames body = o.labels := hnames
  have hstart : ({ graph := { name := o.name } } : Draft) = declared o.name [] := rfl
  have hdeclare : (declared o.name []).declare body = .ok (declared o.name o.labels) := by
    refine (declare_eq_ok List.nodup_nil ?_).mpr ⟨?_, ?_⟩
    · rw [hlabels]
      exact fun n hn => (h.labels n hn).ne_empty
    · rw [hlabels]
      exact h.nodup
    · rw [hlabels]
      rfl
  have horder : (declared o.name o.labels).graph.order.isEmpty = false := by
    obtain ⟨e, -, hlt⟩ := h.entry
    have hne : o.blocks ≠ [] := List.ne_nil_of_length_pos (Nat.zero_lt_of_lt hlt)
    simpa [declared, bare, Outline.graph, Outline.labels] using hne
  have hproper : ProperAll o.labels.length ([] ++ o.actions) := by
    rw [List.nil_append, o.length_labels]
    exact h.proper
  unfold readBody
  rw [hstart, hdeclare]
  simp only [bind, Except.bind, horder, enter_entryLabel h header]
  have hblocks : body.foldlM Draft.step (draftAt ⟨o.name, [], o.entry⟩ o.labels []) =
      .ok (draftAt o [] (valuesOf names o.actions)) :=
    foldlM_blocks o.name o.entry h.nodup o.blocks [] rfl hapart hproper hbody
  rw [hblocks, if_neg Bool.false_ne_true]
  show Except.ok (draftAt o [] (valuesOf names o.actions)).graph = _
  simp [draftAt]

/-! ## Programs -/

/-- The lines of outlines are read to their graphs, whatever names the values have. -/
theorem readFunctions_lines {α : Type} {outline : α → Outline} {names : α → ValueId → String}
    {xs : List α} (hvalid : ∀ x ∈ xs, (outline x).Valid)
    (hapart : ∀ x ∈ xs, Apart (names x) (outline x).actions.length) (done : List Graph)
    (hnames : (done.map (·.name) ++ xs.map fun x => (outline x).name).Nodup) {ls : List Line}
    (hls : ls.map (·.tokens) = xs.flatMap fun x => listing (names x) (outline x)) :
    readFunctions done ls = .ok (done ++ xs.map fun x => (outline x).graph) := by
  induction xs generalizing done ls with
  | nil =>
    obtain rfl : ls = [] := by simpa using hls
    rw [readFunctions]
    simp
  | cons x xs ih =>
    obtain ⟨hx, hvalid⟩ := List.forall_mem_cons.mp hvalid
    obtain ⟨hxNames, hapart⟩ := List.forall_mem_cons.mp hapart
    rw [List.flatMap_cons, listing, List.cons_append] at hls
    obtain ⟨header, ls, rfl, hheader, hls⟩ := List.map_eq_cons_iff.mp hls
    rw [List.append_assoc] at hls
    obtain ⟨body, ls, rfl, hbody, hls⟩ := List.map_eq_append_iff.mp hls
    rw [List.singleton_append] at hls
    obtain ⟨close, ls, rfl, hclose, hls⟩ := List.map_eq_cons_iff.mp hls
    obtain ⟨-, hopen⟩ := labelNames_blockLines hbody
    have hclosing : close.isClosing = true := by
      unfold Line.isClosing
      rw [hclose]
      rfl
    have hnew : (outline x).name ∉ done.map (·.name) := by
      intro hmem
      exact (List.nodup_append.mp hnames).2.2 _ hmem _ List.mem_cons_self rfl
    have hhead : readHeader header.tokens = .ok ((outline x).name, entryLabel (outline x)) := by
      rw [hheader]
      exact readHeader_headerTokens _
    -- no line of the body closes the function, so the body is cut off where it ends
    rw [readFunctions_cons hhead hopen hclosing (readBody_blockLines hx hxNames header hbody) hnew,
      ih hvalid hapart _ (by simpa using hnames) hls, List.append_assoc]
    rfl

theorem readFunctions_listing {os : List Outline} (hos : ∀ o ∈ os, o.Valid) (done : List Graph)
    (hnames : (done.map (·.name) ++ os.map (·.name)).Nodup) {ls : List Line}
    (hls : ls.map (·.tokens) = os.flatMap (listing valueName)) :
    readFunctions done ls = .ok (done ++ os.map Outline.graph) :=
  readFunctions_lines hos (fun o _ => apart_valueName o.actions.length) done hnames hls

/-- Reading what is printed of a program that was read gives the program, so printing it
again gives the same text. -/
theorem reading_what_is_printed_gives_it_back {path : String} {text : List UInt8} {p : Program}
    (h : read path text = .ok p) :
    ∃ s q, printFunctions p.functions = .ok s ∧ read path (bytesOf s) = .ok q ∧ q = p ∧
      printFunctions q.functions = .ok s := by
  obtain ⟨hpath, os, hos, hvalid, hnodup⟩ := wellRead_of_read h
  obtain ⟨s, tss, hprint, htext, hfilter⟩ := printFunctions_eq hvalid
  obtain ⟨ls, hls, hmap⟩ := htext.linesOf
  have hread := readFunctions_listing hvalid [] hnodup (hmap.trans hfilter)
  rw [← hos] at hprint hread
  refine ⟨s, p, hprint, ?_, rfl, hprint⟩
  unfold read
  rw [hls]
  dsimp only
  rw [hread, ← hpath]
  rfl

/-- A program with names that are also keywords, and an entry that is not first. -/
def oddProgram : Program where
  path := "odd"
  functions := [
    Outline.graph {
      name := "f"
      blocks := [
        ("out", [.ret []]),
        ("go", [.const Int64.minValue, .arg 1, .cmp "le" 1 1, .brif 3 0 1])]
      entry := some 1 },
    Outline.graph {
      name := "entry"
      blocks := [("func", [.br 0])]
      entry := some 0 }]

/-- A text of the program, which is not the printed one. -/
def oddText : List UInt8 :=
  bytesOf ("func f entry go \x7b\nout: // the end\n\n ret\ngo:\n v9 = const -9223372036854775808\n" ++
    "arg 1\n a.b=cmp le, v9 v9\n brif a.b out, go\n\x7d\nfunc entry \x7b\nfunc:\nbr func\n\x7d")

theorem reading_what_is_printed_of_odd_gives_it_back :
    read "odd" oddText = .ok oddProgram ∧
      ∃ s q, printFunctions oddProgram.functions = .ok s ∧ read "odd" (bytesOf s) = .ok q ∧
        q = oddProgram ∧ printFunctions q.functions = .ok s := by
  have hread : read "odd" oddText = .ok oddProgram := by decide +kernel
  exact ⟨hread, reading_what_is_printed_gives_it_back hread⟩

end FlowGraph.Text

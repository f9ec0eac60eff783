import FlowGraph.Proofs.Outline

/-!
What reading gives: each function is the graph of an outline that a text can
have, and no two functions have the same name.
-/

namespace FlowGraph.Text

/-! ## Identifiers -/

/-- The names in tokens are identifiers. -/
theorem isIdent_of_tokens {bs : List UInt8} {ts : List Token} (h : tokens bs = .ok ts)
    {n : String} (hn : .ident n ∈ ts) : IsIdent n := by
  fun_induction tokens bs generalizing ts with
  | case1 =>
    cases h
    cases hn
  | case2 c rest hblank ih => exact ih h hn
  | case3 c rest hblank m hmark ih =>
    obtain ⟨ts', hts', rfl⟩ := map_eq_ok.mp h
    exact ih hts' (by simpa using hn)
  | case4 =>
    cases h
    cases hn
  | case5 => cases h
  | case6 c rest hblank hmark hcomment hdigit digits value x hvalue =>
    rename_i ih
    obtain ⟨ts', hts', rfl⟩ := map_eq_ok.mp h
    exact ih hts' (by simpa using hn)
  | case7 c rest hblank hmark hcomment hdigit hstart ih =>
    obtain ⟨ts', hts', rfl⟩ := map_eq_ok.mp h
    rcases List.mem_cons.mp hn with heq | hn
    · cases heq
      exact ⟨c, _, hstart, List.all_eq_true.mp List.all_takeWhile, rfl⟩
    · exact ih hts' hn
  | case8 => cases h

/-- All names on the line are identifiers. -/
def Line.Plain (l : Line) : Prop := ∀ n, .ident n ∈ l.tokens → IsIdent n

theorem plain_of_numberedLines {k : Nat} {ls : List (List UInt8)} {lines : List Line}
    (h : numberedLines k ls = .ok lines) : ∀ l ∈ lines, l.Plain := by
  induction ls generalizing k lines with
  | nil =>
    cases h
    simp
  | cons l ls ih =>
    unfold numberedLines at h
    split at h
    · cases h
    · rename_i ts hts
      dsimp only at h
      split at h
      · exact ih h
      · obtain ⟨lines', hlines', rfl⟩ := map_eq_ok.mp h
        intro l' hl'
        rcases List.mem_cons.mp hl' with rfl | hl'
        · exact fun n hn => isIdent_of_tokens hts hn
        · exact ih hlines' l' hl'

/-! ## Actions -/

/-- The names in scope stand for blocks of a function with so many labels, and for values
given before. -/
structure Scope.Sound (s : Scope) (labels : Nat) (given : ValueId → Prop) : Prop where
  label : ∀ n b, s.labels.lookup n = some b → ∃ k : Nat, k < labels ∧ b = k
  value : ∀ n v, s.values.lookup n = some v → given v

theorem immediate_ok {op : Op} {t : Token} {x : Int64} (h : immediate op t = .ok x) :
    t = .number x ∧ (op = .arg → ¬ x < 0) := by
  unfold immediate at h
  split at h
  · split at h
    · cases h
    · rename_i hneg
      cases h
      exact ⟨rfl, fun hop hx => hneg ⟨hop, hx⟩⟩
  · cases h

theorem condition_ok {t : Token} {n : String} (h : condition t = .ok n) :
    t = .ident n ∧ ∃ c : Cond, c.name = n := by
  unfold condition at h
  split at h
  · split at h
    · rename_i hsome
      cases h
      obtain ⟨c, hc⟩ := Option.isSome_iff_exists.mp hsome
      exact ⟨rfl, c, by simpa using List.find?_some hc⟩
    · cases h
  · cases h

/-- What the operands of an operation are read to. -/
inductive Scope.ReadsTo (s : Scope) : Op → List Token → Action → Prop
  | const (x : Int64) : s.ReadsTo .const [.number x] { op := .const, imm := x }
  | arg {x : Int64} (hx : ¬ x < 0) : s.ReadsTo .arg [.number x] { op := .arg, imm := x }
  | binary {op : Op} {t u : Token} {x y : ValueId} (hop : op = .add ∨ op = .sub ∨ op = .mul)
      (hx : s.value t = .ok x) (hy : s.value u = .ok y) : s.ReadsTo op [t, u] (.binary op x y)
  | cmp (c : Cond) {t u : Token} {x y : ValueId} (hx : s.value t = .ok x)
      (hy : s.value u = .ok y) : s.ReadsTo .cmp [.ident c.name, t, u] (.cmp c.name x y)
  | call (f : String) {ts : List Token} {vs : List ValueId} (hvs : ts.mapM s.value = .ok vs) :
      s.ReadsTo .call (.ident f :: ts) (.call f vs)
  | br {t : Token} {b : BlockId} (hb : s.label t = .ok b) : s.ReadsTo .br [t] (.br b)
  | brif {t u v : Token} {x : ValueId} {yes no : BlockId} (hx : s.value t = .ok x)
      (hyes : s.label u = .ok yes) (hno : s.label v = .ok no) :
      s.ReadsTo .brif [t, u, v] (.brif x yes no)
  | ret {ts : List Token} {vs : List ValueId} (hlen : ts.length ≤ 1)
      (hvs : ts.mapM s.value = .ok vs) : s.ReadsTo .ret ts (.ret vs)

section ReadsTo

variable {s : Scope} {op : Op} {ts : List Token} {a : Action}

theorem readsTo_binary (hop : op = .add ∨ op = .sub ∨ op = .mul) {t u : Token}
    (h : (do
      let x ← s.value t
      let y ← s.value u
      return Action.binary op x y) = .ok a) : s.ReadsTo op [t, u] a := by
  obtain ⟨x, hx, h⟩ := bind_eq_ok.mp h
  obtain ⟨y, hy, h⟩ := bind_eq_ok.mp h
  cases h
  exact .binary hop hx hy

theorem readsTo_of_readAction (h : readAction s op ts = .ok a) : s.ReadsTo op ts a := by
  unfold readAction at h
  dsimp only at h
  -- one case for each operation, in the order of the definition; in each, only
  -- one shape of the operands is read
  split at h
  · split at h
    · obtain ⟨x, hx, h⟩ := bind_eq_ok.mp h
      cases h
      obtain ⟨rfl, -⟩ := immediate_ok hx
      exact .const x
    · cases h
  · split at h
    · obtain ⟨x, hx, h⟩ := bind_eq_ok.mp h
      cases h
      obtain ⟨rfl, hneg⟩ := immediate_ok hx
      exact .arg (hneg rfl)
    · cases h
  · split at h
    · exact readsTo_binary (by simp) h
    · cases h
  · split at h
    · exact readsTo_binary (by simp) h
    · cases h
  · split at h
    · exact readsTo_binary (by simp) h
    · cases h
  · split at h
    · obtain ⟨n, hn, h⟩ := bind_eq_ok.mp h
      obtain ⟨x, hx, h⟩ := bind_eq_ok.mp h
      obtain ⟨y, hy, h⟩ := bind_eq_ok.mp h
      cases h
      obtain ⟨rfl, c, rfl⟩ := condition_ok hn
      exact .cmp c hx hy
    · cases h
  · split at h
    · cases h
    · obtain ⟨vs, hvs, h⟩ := bind_eq_ok.mp h
      cases h
      exact .call _ hvs
    · cases h
  · split at h
    · obtain ⟨b, hb, h⟩ := bind_eq_ok.mp h
      cases h
      exact .br hb
    · cases h
  · split at h
    · obtain ⟨x, hx, h⟩ := bind_eq_ok.mp h
      obtain ⟨yes, hyes, h⟩ := bind_eq_ok.mp h
      obtain ⟨no, hno, h⟩ := bind_eq_ok.mp h
      cases h
      exact .brif hx hyes hno
    · cases h
  · split at h
    · rename_i hlen
      obtain ⟨vs, hvs, h⟩ := bind_eq_ok.mp h
      cases h
      exact .ret hlen hvs
    · cases h
  · cases h

theorem Scope.ReadsTo.readAction (h : s.ReadsTo op ts a) : readAction s op ts = .ok a := by
  cases h with
  | const x => rfl
  | @arg x hx =>
    have himm : immediate .arg (.number x) = .ok x := by simp [immediate, hx]
    exact bind_eq_ok.mpr ⟨x, himm, rfl⟩
  | @binary _ _ _ x y hop hx hy =>
    rcases hop with rfl | rfl | rfl
    all_goals exact bind_eq_ok.mpr ⟨x, hx, bind_eq_ok.mpr ⟨y, hy, rfl⟩⟩
  | @cmp c _ _ x y hx hy =>
    have hcond : condition (.ident c.name) = .ok c.name := by
      simp [condition, Cond.ofName?_name]
    exact bind_eq_ok.mpr ⟨c.name, hcond, bind_eq_ok.mpr ⟨x, hx, bind_eq_ok.mpr ⟨y, hy, rfl⟩⟩⟩
  | @call _ _ vs hvs => exact bind_eq_ok.mpr ⟨vs, hvs, rfl⟩
  | @br _ b hb => exact bind_eq_ok.mpr ⟨b, hb, rfl⟩
  | @brif _ _ _ x yes no hx hyes hno =>
    exact bind_eq_ok.mpr ⟨x, hx, bind_eq_ok.mpr ⟨yes, hyes, bind_eq_ok.mpr ⟨no, hno, rfl⟩⟩⟩
  | @ret _ vs hlen hvs => exact (if_pos hlen).trans (bind_eq_ok.mpr ⟨vs, hvs, rfl⟩)

end ReadsTo

section Actions

variable {s : Scope} {labels : Nat} {given : ValueId → Prop} (hs : s.Sound labels given)

include hs

theorem value_given {t : Token} {v : ValueId} (h : s.value t = .ok v) : given v := by
  unfold Scope.value at h
  split at h
  · split at h
    · rename_i hlookup
      cases h
      exact hs.value _ _ hlookup
    · cases h
  · cases h

theorem label_lt {t : Token} {b : BlockId} (h : s.label t = .ok b) :
    ∃ k : Nat, k < labels ∧ b = k := by
  unfold Scope.label at h
  split at h
  · split at h
    · rename_i hlookup
      cases h
      exact hs.label _ _ hlookup
    · cases h
  · cases h

theorem values_given {ts : List Token} {vs : List ValueId} (h : ts.mapM s.value = .ok vs) :
    ∀ v ∈ vs, given v := by
  rw [mapM_eq_ok] at h
  intro v hv
  induction h with
  | nil => cases hv
  | cons hone _ ih =>
    rcases List.mem_cons.mp hv with rfl | hv
    · exact value_given hs hone
    · exact ih hv

theorem readAction_proper {op : Op} {ts : List Token} (hts : ∀ n, .ident n ∈ ts → IsIdent n)
    {a : Action} (h : readAction s op ts = .ok a) :
    a.Proper labels given ∧ a.op = op := by
  cases readsTo_of_readAction h with
  | const x => exact ⟨.const x, rfl⟩
  | arg hx => exact ⟨.arg hx, rfl⟩
  | binary hop hx hy => exact ⟨.binary hop (value_given hs hx) (value_given hs hy), rfl⟩
  | cmp c hx hy => exact ⟨.cmp c (value_given hs hx) (value_given hs hy), rfl⟩
  | call f hvs => exact ⟨.call (hts f List.mem_cons_self) (values_given hs hvs), rfl⟩
  | br hb =>
    obtain ⟨k, hk, rfl⟩ := label_lt hs hb
    exact ⟨.br hk, rfl⟩
  | brif hx hyes hno =>
    obtain ⟨j, hj, rfl⟩ := label_lt hs hyes
    obtain ⟨k, hk, rfl⟩ := label_lt hs hno
    exact ⟨.brif (value_given hs hx) hj hk, rfl⟩
  | ret hlen hvs =>
    rw [(mapM_eq_ok.mp hvs).length_eq] at hlen
    exact ⟨.ret hlen (values_given hs hvs), rfl⟩

theorem readOperation_proper {named : Bool} {ts : List Token}
    (hts : ∀ n, .ident n ∈ ts → IsIdent n) {a : Action} (h : readOperation s named ts = .ok a) :
    a.Proper labels given ∧ (named = true → a.op.defines = true) := by
  unfold readOperation at h
  split at h
  · cases h
  · split at h
    · cases h
    · rename_i op hop
      split at h
      · cases h
      · rename_i hnamed
        obtain ⟨hproper, rfl⟩ :=
          readAction_proper hs (fun n hn => hts n (List.mem_cons_of_mem _ hn)) h
        refine ⟨hproper, ?_⟩
        rintro rfl
        simpa using hnamed
  · cases h

theorem readInstr_proper {ts : List Token} (hts : ∀ n, .ident n ∈ ts → IsIdent n)
    {name : Option String} {a : Action} (h : readInstr s ts = .ok (name, a)) :
    a.Proper labels given ∧ (name.isSome = true → a.op.defines = true) := by
  unfold readInstr at h
  split at h
  · rename_i n rest
    split at h
    · cases h
    · obtain ⟨a', ha', h⟩ := bind_eq_ok.mp h
      cases h
      obtain ⟨hproper, hdefines⟩ := readOperation_proper hs
        (fun n hn => hts n (List.mem_cons_of_mem _ (List.mem_cons_of_mem _ hn))) ha'
      exact ⟨hproper, fun _ => hdefines rfl⟩
  · cases h
  · obtain ⟨a', ha', h⟩ := bind_eq_ok.mp h
    cases h
    obtain ⟨hproper, -⟩ := readOperation_proper hs hts ha'
    exact ⟨hproper, by simp⟩

end Actions

/-! ## Labels -/

theorem IsIdent.ne_empty {n : String} (h : IsIdent n) : n ≠ "" := by
  obtain ⟨c, rest, -, -, rfl⟩ := h
  unfold asciiText
  simp

def labelsOf (names : List String) : List (String × BlockId) :=
  names.zipIdx.map fun (n, i) => (n, (i : Int))

theorem labelsOf_snoc (names : List String) (n : String) :
    labelsOf (names ++ [n]) = labelsOf names ++ [(n, (names.length : Int))] := by
  simp [labelsOf, List.zipIdx_append]

theorem map_fst_labelsOf (names : List String) : (labelsOf names).map (·.1) = names := by
  unfold labelsOf
  rw [List.map_map]
  exact List.zipIdx_map_fst 0 names

theorem lookup_labelsOf {names : List String} (h : names.Nodup) {n : String} {b : BlockId} :
    (labelsOf names).lookup n = some b ↔ ∃ k : Nat, names[k]? = some n ∧ b = k := by
  rw [lookup_eq_some_iff_mem (by rw [map_fst_labelsOf]; exact h)]
  unfold labelsOf
  rw [List.mem_map]
  constructor
  · rintro ⟨⟨m, k⟩, hmem, heq⟩
    cases heq
    exact ⟨k, List.mk_mem_zipIdx_iff_getElem?.mp hmem, rfl⟩
  · rintro ⟨k, hk, rfl⟩
    exact ⟨(n, k), List.mk_mem_zipIdx_iff_getElem?.mpr hk, rfl⟩

/-- The labels that lines declare, in order. -/
def labelNames (ls : List Line) : List String := ls.filterMap Line.label?

theorem labelNames_cons_none {l : Line} (h : l.label? = none) (ls : List Line) :
    labelNames (l :: ls) = labelNames ls :=
  List.filterMap_cons_none h

theorem labelNames_cons_some {l : Line} {n : String} (h : l.label? = some n) (ls : List Line) :
    labelNames (l :: ls) = n :: labelNames ls :=
  List.filterMap_cons_some h

theorem labelNames_append (ls ls' : List Line) :
    labelNames (ls ++ ls') = labelNames ls ++ labelNames ls' :=
  List.filterMap_append

/-- A function with its labels declared and nothing under them. -/
def bare (name : String) (names : List String) : Outline :=
  { name := name, blocks := names.map (·, []), entry := names.head?.map fun _ => 0 }

/-- A draft with labels declared. -/
def declared (name : String) (names : List String) : Draft :=
  { graph := (bare name names).graph, scope := { labels := labelsOf names } }

theorem declared_snoc (name : String) (names : List String) {n : String} (hn : n ≠ "") :
    (bare name names).graph.addBlock n = (bare name (names ++ [n])).graph := by
  rw [Outline.graph_addBlock _ hn]
  unfold bare
  congr 1
  cases names <;> simp

/-- Labels are declared if none comes twice. -/
theorem declare_eq_ok {name : String} {names : List String} {ls : List Line} {d : Draft}
    (hnames : names.Nodup) (hls : ∀ n ∈ labelNames ls, n ≠ "") :
    (declared name names).declare ls = .ok d ↔
      (names ++ labelNames ls).Nodup ∧ d = declared name (names ++ labelNames ls) := by
  -- on the lines; the labels declared so far are those of the lines before
  induction ls generalizing names with
  | nil => simp [Draft.declare, labelNames, hnames, eq_comm]
  | cons l ls ih =>
    unfold Draft.declare
    cases hl : l.label? with
    | none =>
      rw [labelNames_cons_none hl] at hls ⊢
      exact ih hnames hls
    | some n =>
      rw [labelNames_cons_some hl] at hls ⊢
      dsimp only
      have hmem : ((declared name names).scope.labels.lookup n).isSome = true ↔ n ∈ names := by
        rw [isSome_lookup]
        show n ∈ (labelsOf names).map _ ↔ _
        rw [map_fst_labelsOf]
      by_cases hn : n ∈ names
      · rw [if_pos (hmem.mpr hn)]
        constructor
        · intro h
          cases h
        · rintro ⟨hnodup, -⟩
          exact absurd rfl ((List.nodup_append.mp hnodup).2.2 n hn n List.mem_cons_self)
      · rw [if_neg (mt hmem.mp hn)]
        have hnext : ({ declared name names with
            graph := (declared name names).graph.addBlock n
            scope := { (declared name names).scope with
              labels := (declared name names).scope.labels ++
                [(n, (declared name names).graph.nextBlock)] } } : Draft) =
            declared name (names ++ [n]) := by
          have hadd := declared_snoc name names (hls n List.mem_cons_self)
          unfold declared
          rw [labelsOf_snoc, ← hadd]
          simp [Graph.nextBlock, Outline.graph, bare]
        have hnodup : (names ++ [n]).Nodup := by
          rw [List.nodup_append]
          refine ⟨hnames, by simp, ?_⟩
          rintro m hm k hk rfl
          exact hn (List.mem_singleton.mp hk ▸ hm)
        rw [hnext, ih hnodup fun m hm => hls m (List.mem_cons_of_mem n hm), List.append_assoc]
        rfl

/-! ## Lines -/

def lastBlock : Nat → Option BlockId
  | 0 => none
  | k + 1 => some k

/-- A draft where the outline has been read, with labels still ahead. -/
def draftAt (o : Outline) (ahead : List String) (values : List (String × ValueId)) : Draft where
  graph := Outline.graph { o with blocks := o.blocks ++ ahead.map (·, []) }
  scope := { labels := labelsOf (o.labels ++ ahead), values := values }
  current := lastBlock o.blocks.length

theorem step_label {o : Outline} {n : String} {ahead : List String}
    {values : List (String × ValueId)} {l : Line} (hnodup : (o.labels ++ n :: ahead).Nodup)
    (hl : l.label? = some n) :
    (draftAt o (n :: ahead) values).step l =
      .ok (draftAt { o with blocks := o.blocks ++ [(n, [])] } ahead values) := by
  have hlookup : (labelsOf (o.labels ++ n :: ahead)).lookup n = some (o.blocks.length : Int) := by
    rw [lookup_labelsOf hnodup]
    exact ⟨o.blocks.length, by simp [Outline.labels], rfl⟩
  unfold Outline.labels at hlookup
  unfold Draft.step
  rw [hl]
  simp [draftAt, Outline.labels, lastBlock, hlookup]

theorem step_instr {name : String} {entry : Option Nat} {bs : List (String × List Action)}
    {n : String} {as : List Action} {ahead : List String} {values : List (String × ValueId)}
    {l : Line} {given : Option String} {a : Action} (hl : l.label? = none)
    (hr : readInstr (draftAt ⟨name, bs ++ [(n, as)], entry⟩ ahead values).scope l.tokens =
      .ok (given, a)) :
    (draftAt ⟨name, bs ++ [(n, as)], entry⟩ ahead values).step l =
      .ok (draftAt ⟨name, bs ++ [(n, as ++ [a])], entry⟩ ahead
        (values ++ (given.map (·, ((bs.flatMap (·.2) ++ as).length : Int))).toList)) := by
  have hgraph := Outline.graph_append name entry bs n as ahead a
  have hnext := congrArg Graph.nextValue (Outline.graph_at name entry bs n as ahead)
  have hcurrent : (draftAt ⟨name, bs ++ [(n, as)], entry⟩ ahead values).current =
      some (bs.length : Int) := by
    simp [draftAt, lastBlock]
  unfold Draft.step
  rw [hl, hcurrent, hr]
  cases given with
  | none => simp [draftAt, hgraph, Outline.labels, lastBlock]
  | some m => simp [draftAt, hgraph, hnext, Outline.labels, lastBlock]

/-- What is known of an outline while the lines after it are read. -/
structure Reads (o : Outline) (ahead : List String) (values : List (String × ValueId)) : Prop where
  nodup : (o.labels ++ ahead).Nodup
  values : ∀ n v, values.lookup n = some v → Gives o.actions v
  proper : ProperAll (o.blocks.length + ahead.length) o.actions

theorem Reads.scope {o : Outline} {ahead : List String} {values : List (String × ValueId)}
    (h : Reads o ahead values) :
    (draftAt o ahead values).scope.Sound (o.blocks.length + ahead.length) (Gives o.actions) := by
  refine ⟨?_, h.values⟩
  intro n b hb
  obtain ⟨k, hk, rfl⟩ := (lookup_labelsOf h.nodup).mp hb
  refine ⟨k, ?_, rfl⟩
  simpa using (List.getElem?_eq_some_iff.mp hk).1

theorem Reads.label {o : Outline} {n : String} {ahead : List String}
    {values : List (String × ValueId)} (h : Reads o (n :: ahead) values) :
    Reads { o with blocks := o.blocks ++ [(n, [])] } ahead values := by
  have hactions : Outline.actions { o with blocks := o.blocks ++ [(n, [])] } = o.actions := by
    rw [Outline.actions_snoc, List.append_nil]
    rfl
  refine ⟨?_, ?_, ?_⟩
  · simpa [Outline.labels] using h.nodup
  · rw [hactions]
    exact h.values
  · rw [hactions]
    have := h.proper
    simpa [Nat.add_assoc, Nat.add_comm 1] using this

theorem Reads.instr {name : String} {entry : Option Nat} {bs : List (String × List Action)}
    {n : String} {as : List Action} {ahead : List String} {values : List (String × ValueId)}
    (h : Reads ⟨name, bs ++ [(n, as)], entry⟩ ahead values) {given : Option String} {a : Action}
    (ha : a.Proper ((bs ++ [(n, as)]).length + ahead.length) (Gives (bs.flatMap (·.2) ++ as)))
    (hgiven : given.isSome = true → a.op.defines = true) :
    Reads ⟨name, bs ++ [(n, as ++ [a])], entry⟩ ahead
      (values ++ (given.map (·, ((bs.flatMap (·.2) ++ as).length : Int))).toList) := by
  have hvalues := h.values
  have hproper := h.proper
  rw [Outline.actions_snoc] at hvalues hproper
  refine ⟨?_, ?_, ?_⟩
  · simpa [Outline.labels] using h.nodup
  · rw [Outline.actions_snoc, ← List.append_assoc]
    intro m v hm
    rw [List.lookup_append, Option.or_eq_some_iff] at hm
    rcases hm with hm | ⟨-, hm⟩
    · exact (hvalues m v hm).append [a]
    · cases given with
      | none => cases hm
      | some k =>
        obtain rfl : v = ((bs.flatMap (·.2) ++ as).length : Int) := by
          have := mem_of_lookup hm
          simp only [Option.map_some, Option.toList_some, List.mem_singleton, Prod.mk.injEq] at this
          exact this.2
        exact gives_last (hgiven rfl)
  · rw [Outline.actions_snoc, ← List.append_assoc]
    have := hproper.snoc (a := a) (by simpa using ha)
    simpa using this

theorem step_ok_of_current {d d' : Draft} {l : Line} (hl : l.label? = none)
    (h : d.step l = .ok d') :
    ∃ b given a, d.current = some b ∧ readInstr d.scope l.tokens = .ok (given, a) := by
  unfold Draft.step at h
  rw [hl] at h
  dsimp only at h
  split at h
  · cases h
  · rename_i b hb
    split at h
    · cases h
    · rename_i given a hr
      exact ⟨b, given, a, hb, hr⟩

/-- The lines of a body, read one after the other. -/
theorem foldlM_step_spec (ls : List Line) {o : Outline} {values : List (String × ValueId)}
    {d : Draft} (hplain : ∀ l ∈ ls, l.Plain) (h : Reads o (labelNames ls) values)
    (hrun : ls.foldlM Draft.step (draftAt o (labelNames ls) values) = .ok d) :
    ∃ o' values', d = draftAt o' [] values' ∧ Reads o' [] values' ∧ o'.name = o.name ∧
      o'.entry = o.entry ∧ o'.labels = o.labels ++ labelNames ls := by
  -- on the lines; the labels ahead are those that the lines to come declare
  induction ls generalizing o values with
  | nil =>
    cases hrun
    exact ⟨o, values, rfl, h, rfl, rfl, by simp [labelNames]⟩
  | cons l ls ih =>
    rw [List.foldlM_cons, bind_eq_ok] at hrun
    obtain ⟨d₁, hd₁, hrun⟩ := hrun
    have hplain' : ∀ l' ∈ ls, l'.Plain := fun l' hl' => hplain l' (List.mem_cons_of_mem l hl')
    cases hl : l.label? with
    | some n =>
      rw [labelNames_cons_some hl] at h hd₁ ⊢
      rw [step_label h.nodup hl] at hd₁
      cases hd₁
      obtain ⟨o', values', hd, hreads, hname, hentry, hall⟩ := ih hplain' h.label hrun
      refine ⟨o', values', hd, hreads, hname, hentry, ?_⟩
      rw [hall]
      simp [Outline.labels]
    | none =>
      rw [labelNames_cons_none hl] at h hd₁ ⊢
      obtain ⟨b, given, a, hcurrent, hr⟩ := step_ok_of_current hl hd₁
      obtain ⟨name, blocks, entry⟩ := o
      -- an instruction goes under the last label
      rcases List.eq_nil_or_concat' blocks with rfl | ⟨bs, ⟨n, as⟩, rfl⟩
      · cases hcurrent
      · rw [step_instr hl hr] at hd₁
        cases hd₁
        obtain ⟨hproper, hgiven⟩ := readInstr_proper h.scope (hplain l List.mem_cons_self) hr
        rw [Outline.actions_snoc] at hproper
        obtain ⟨o', values', hd, hreads, hname, hentry, hall⟩ :=
          ih hplain' (h.instr hproper hgiven) hrun
        refine ⟨o', values', hd, hreads, hname, hentry, ?_⟩
        rw [hall]
        simp [Outline.labels]

/-! ## Functions -/

theorem enter_ok {name : String} {names : List String} (hnodup : names.Nodup) (hne : names ≠ [])
    {header : Line} {entry : Option String} {d : Draft}
    (h : (declared name names).enter header entry = .ok d) :
    ∃ e, e < names.length ∧ d = draftAt ⟨name, [], some e⟩ names [] := by
  unfold Draft.enter at h
  split at h
  · cases h
    obtain ⟨n, rest, rfl⟩ := List.exists_cons_of_ne_nil hne
    exact ⟨0, by simp, rfl⟩
  · split at h
    · cases h
    · rename_i b hb
      cases h
      obtain ⟨k, hk, rfl⟩ := (lookup_labelsOf hnodup).mp hb
      exact ⟨k, (List.getElem?_eq_some_iff.mp hk).1, rfl⟩

theorem isIdent_of_label {l : Line} (h : l.Plain) {n : String} (hl : l.label? = some n) :
    IsIdent n := by
  unfold Line.label? at hl
  split at hl
  · rename_i heq
    cases hl
    exact h n (by rw [heq]; exact List.mem_cons_self)
  · cases hl

theorem isIdent_of_labelNames {ls : List Line} (h : ∀ l ∈ ls, l.Plain) :
    ∀ n ∈ labelNames ls, IsIdent n := by
  intro n hn
  obtain ⟨l, hl, hn⟩ := List.mem_filterMap.mp hn
  exact isIdent_of_label (h l hl) hn

/-- At the start of a function its labels are declared, if none comes twice. -/
theorem declare_start {name : String} {body : List Line} {d : Draft}
    (hplain : ∀ l ∈ body, l.Plain) :
    Draft.declare { graph := { name := name } } body = .ok d ↔
      (labelNames body).Nodup ∧ d = declared name (labelNames body) := by
  have hidents := isIdent_of_labelNames hplain
  change (declared name []).declare body = .ok d ↔ _
  exact declare_eq_ok List.nodup_nil fun n hn => (hidents n hn).ne_empty

theorem readBody_spec {header : Line} {name : String} {entry : Option String} {body : List Line}
    {g : Graph} (hname : IsIdent name) (hplain : ∀ l ∈ body, l.Plain)
    (h : readBody header name entry body = .ok g) :
    ∃ o : Outline, o.Valid ∧ o.name = name ∧ g = o.graph := by
  have hidents := isIdent_of_labelNames hplain
  unfold readBody at h
  obtain ⟨d₁, hd₁, h⟩ := bind_eq_ok.mp h
  obtain ⟨hnodup, rfl⟩ := (declare_start hplain).mp hd₁
  split at h
  · cases h
  · rename_i hblocks
    have hne : labelNames body ≠ [] := by
      intro hnil
      rw [hnil] at hblocks
      exact hblocks rfl
    -- all labels are declared before the first line is read
    obtain ⟨d₂, hd₂, h⟩ := bind_eq_ok.mp h
    obtain ⟨e, he, rfl⟩ := enter_ok hnodup hne hd₂
    obtain ⟨d₃, hd₃, h⟩ := bind_eq_ok.mp h
    cases h
    have hreads : Reads ⟨name, [], some e⟩ (labelNames body) [] :=
      ⟨hnodup, by simp, by simp [ProperAll, Outline.actions]⟩
    obtain ⟨o, values, rfl, hread, hon, hoe, hlabels⟩ := foldlM_step_spec body hplain hreads hd₃
    rw [show Outline.labels ⟨name, [], some e⟩ = [] from rfl, List.nil_append] at hlabels
    have hlen : o.blocks.length = (labelNames body).length := by
      rw [← hlabels, o.length_labels]
    refine ⟨o, ⟨?_, ?_, ?_, ⟨e, hoe, ?_⟩, hread.proper⟩, hon, ?_⟩
    · rw [hon]
      exact hname
    · rw [hlabels]
      exact hidents
    · rw [hlabels]
      exact hnodup
    · rw [hlen]
      exact he
    · simp [draftAt]

theorem readHeader_ok {ts : List Token} {name : String} {entry : Option String}
    (h : readHeader ts = .ok (name, entry)) : .ident name ∈ ts := by
  unfold readHeader at h
  split at h
  · cases h
  · split at h
    · cases h
      simp
    · split at h
      · split at h
        · cases h
          simp
        · cases h
      · cases h
    · cases h
    · cases h
    · cases h

/-! ## Programs -/

/-- The body of a function goes to the first closing brace. -/
theorem cut_at_closing {body : List Line} {close : Line} (rest : List Line)
    (hopen : ∀ l ∈ body, l.isClosing = false) (hclose : close.isClosing = true) :
    (body ++ close :: rest).takeWhile (fun l => !l.isClosing) = body ∧
      (body ++ close :: rest).dropWhile (fun l => !l.isClosing) = close :: rest := by
  constructor
  · rw [List.takeWhile_append_of_pos (by simpa using hopen),
      List.takeWhile_cons_of_neg (by simp [hclose]), List.append_nil]
  · rw [List.dropWhile_append_of_pos (by simpa using hopen),
      List.dropWhile_cons_of_neg (by simp [hclose])]

/-- Lines with a closing brace are those before the first one, the brace and those after it. -/
theorem split_at_closing {ls after : List Line} {close : Line}
    (h : ls.dropWhile (fun l => !l.isClosing) = close :: after) :
    ls = ls.takeWhile (fun l => !l.isClosing) ++ close :: after ∧ close.isClosing = true ∧
      ∀ l ∈ ls.takeWhile (fun l => !l.isClosing), l.isClosing = false := by
  refine ⟨?_, ?_, ?_⟩
  · rw [← h, List.takeWhile_append_dropWhile]
  · have := List.head?_dropWhile_not (fun l : Line => !l.isClosing) ls
    rw [h] at this
    simpa using this
  · intro l hl
    simpa using List.all_eq_true.mp List.all_takeWhile l hl

/-- One function is read from its lines, if its name is new, and then the rest. -/
theorem readFunctions_cons {done : List Graph} {header close : Line} {body rest : List Line}
    {name : String} {entry : Option String} {g : Graph}
    (hheader : readHeader header.tokens = .ok (name, entry))
    (hopen : ∀ l ∈ body, l.isClosing = false) (hclose : close.isClosing = true)
    (hbody : readBody header name entry body = .ok g) (hnew : name ∉ done.map (·.name)) :
    readFunctions done (header :: (body ++ close :: rest)) = readFunctions (done ++ [g]) rest := by
  obtain ⟨htake, hdrop⟩ := cut_at_closing rest hopen hclose
  have hfresh : done.any (fun f => f.name == name) = false := by
    rw [List.any_eq_false]
    intro f hf heq
    exact hnew (List.mem_map.mpr ⟨f, hf, beq_iff_eq.mp heq⟩)
  rw [readFunctions]
  simp only [hheader, hdrop, htake, hbody, hfresh, Bool.false_eq_true, if_false, List.tail_cons]

/-- The graphs are those of valid outlines with names of their own. -/
def WellRead (gs : List Graph) : Prop :=
  ∃ os : List Outline, gs = os.map Outline.graph ∧ (∀ o ∈ os, o.Valid) ∧ (os.map (·.name)).Nodup

theorem WellRead.valid_of_mem {gs : List Graph} (h : WellRead gs) {g : Graph} (hg : g ∈ gs) :
    ∃ o : Outline, o.Valid ∧ g = o.graph := by
  obtain ⟨os, rfl, hvalid, -⟩ := h
  obtain ⟨o, ho, rfl⟩ := List.mem_map.mp hg
  exact ⟨o, hvalid o ho, rfl⟩

theorem WellRead.nodup_names {gs : List Graph} (h : WellRead gs) : (gs.map (·.name)).Nodup := by
  obtain ⟨os, rfl, -, hnodup⟩ := h
  rw [List.map_map]
  exact hnodup

theorem WellRead.snoc {gs : List Graph} (h : WellRead gs) {o : Outline} (ho : o.Valid)
    (hnew : ∀ g ∈ gs, g.name ≠ o.name) : WellRead (gs ++ [o.graph]) := by
  obtain ⟨os, rfl, hvalid, hnodup⟩ := h
  refine ⟨os ++ [o], by simp, ?_, ?_⟩
  · intro o' ho'
    rcases List.mem_append.mp ho' with ho' | ho'
    · exact hvalid o' ho'
    · exact List.mem_singleton.mp ho' ▸ ho
  · rw [List.map_append, List.nodup_append]
    refine ⟨hnodup, by simp, ?_⟩
    rintro n hn m hm rfl
    obtain ⟨o', ho', hname⟩ := List.mem_map.mp hn
    refine hnew o'.graph (List.mem_map_of_mem ho') ?_
    show o'.name = o.name
    rw [hname]
    exact List.mem_singleton.mp hm

theorem readFunctions_spec {done : List Graph} {ls : List Line} {gs : List Graph}
    (hdone : WellRead done) (hplain : ∀ l ∈ ls, l.Plain) (h : readFunctions done ls = .ok gs) :
    WellRead gs := by
  fun_induction readFunctions done ls with
  | case1 =>
    cases h
    exact hdone
  | case2 => cases h
  | case3 => cases h
  | case4 => cases h
  | case5 => cases h
  | case6 done header rest name entry hheader close after hclose g hbody hnew ih =>
    have hrest : ∀ l ∈ rest, l.Plain := fun l hl => hplain l (List.mem_cons_of_mem header hl)
    have hname : IsIdent name := hplain header List.mem_cons_self name (readHeader_ok hheader)
    obtain ⟨o, ho, hon, rfl⟩ := readBody_spec hname
      (fun l hl => hrest l ((List.takeWhile_sublist _).subset hl)) hbody
    refine ih (hdone.snoc ho ?_) ?_ h
    · intro g hg heq
      refine hnew (List.any_eq_true.mpr ⟨g, hg, ?_⟩)
      rw [heq, hon, beq_self_eq_true]
    · exact fun l hl => hrest l ((List.dropWhile_sublist _).subset (List.mem_of_mem_tail hl))

/-- What is read is a list of valid outlines. -/
theorem wellRead_of_read {path : String} {text : List UInt8} {p : Program}
    (h : read path text = .ok p) : p.path = path ∧ WellRead p.functions := by
  unfold read at h
  split at h
  · cases h
  · rename_i ls hls
    obtain ⟨gs, hgs, rfl⟩ := map_eq_ok.mp h
    exact ⟨rfl, readFunctions_spec ⟨[], rfl, by simp, by simp⟩ (plain_of_numberedLines hls) hgs⟩

end FlowGraph.Text

import FlowGraph.Proofs.Grammar
import FlowGraph.Proofs.Reading

/-!
The reader accepts the texts of the grammar and no others. What one line may
be is decided by the names in scope alone: the labels of the whole function and
the values of the lines before. So each part of the reader accepts what one part
of the grammar allows, from an operand up to a list of functions.
-/

namespace FlowGraph.Text

/-! ## Instructions -/

theorem value_ok {s : Scope} {t : Token} {v : ValueId} (h : s.value t = .ok v) :
    ∃ n ∈ s.values.map (·.1), t = .ident n := by
  unfold Scope.value at h
  split at h
  · rename_i n
    split at h
    · rename_i w hw
      exact ⟨n, isSome_lookup.mp (by rw [hw]; rfl), rfl⟩
    · cases h
  · cases h

theorem value_of_mem {s : Scope} {n : String} (h : n ∈ s.values.map (·.1)) :
    ∃ v, s.value (.ident n) = .ok v := by
  obtain ⟨v, hv⟩ := Option.isSome_iff_exists.mp (isSome_lookup.mpr h)
  exact ⟨v, by simp [Scope.value, hv]⟩

theorem label_ok {s : Scope} {t : Token} {b : BlockId} (h : s.label t = .ok b) :
    ∃ n ∈ s.labels.map (·.1), t = .ident n := by
  unfold Scope.label at h
  split at h
  · rename_i n
    split at h
    · rename_i w hw
      exact ⟨n, isSome_lookup.mp (by rw [hw]; rfl), rfl⟩
    · cases h
  · cases h

theorem label_of_mem {s : Scope} {n : String} (h : n ∈ s.labels.map (·.1)) :
    ∃ b, s.label (.ident n) = .ok b := by
  obtain ⟨b, hb⟩ := Option.isSome_iff_exists.mp (isSome_lookup.mpr h)
  exact ⟨b, by simp [Scope.label, hb]⟩

theorem values_ok {s : Scope} {ts : List Token} {vs : List ValueId}
    (h : ts.mapM s.value = .ok vs) :
    ∃ ns : List String, (∀ n ∈ ns, n ∈ s.values.map (·.1)) ∧ ts = ns.map .ident := by
  rw [mapM_eq_ok] at h
  induction h with
  | nil => exact ⟨[], by simp, rfl⟩
  | cons hone _ ih =>
    obtain ⟨n, hn, rfl⟩ := value_ok hone
    obtain ⟨ns, hns, rfl⟩ := ih
    exact ⟨n :: ns, List.forall_mem_cons.mpr ⟨hn, hns⟩, rfl⟩

theorem values_of_mem {s : Scope} {ns : List String} (h : ∀ n ∈ ns, n ∈ s.values.map (·.1)) :
    ∃ vs, (ns.map Token.ident).mapM s.value = .ok vs := by
  induction ns with
  | nil => exact ⟨[], rfl⟩
  | cons n ns ih =>
    obtain ⟨hn, hns⟩ := List.forall_mem_cons.mp h
    obtain ⟨v, hv⟩ := value_of_mem hn
    obtain ⟨vs, hvs⟩ := ih hns
    exact ⟨v :: vs, by rw [List.map_cons, List.mapM_cons, hv, hvs]; rfl⟩

/-- The names of the conditions. -/
theorem cond_iff {n : String} :
    n ∈ ["eq", "ne", "lt", "le", "gt", "ge"] ↔ ∃ c : Cond, c.name = n := by
  constructor
  · intro h
    have hall : ∀ n ∈ ["eq", "ne", "lt", "le", "gt", "ge"], ∃ c ∈ Cond.all, c.name = n := by decide
    obtain ⟨c, -, hc⟩ := hall n h
    exact ⟨c, hc⟩
  · rintro ⟨c, rfl⟩
    cases c <;> decide

theorem not_lt_zero_iff {x : Int64} : ¬ x < 0 ↔ 0 ≤ x.toInt := by
  rw [Int64.lt_iff_toInt_lt, Int64.toInt_zero, Int.not_lt]

section Instructions

variable {s : Scope}

/-- The tokens are an operation on names in scope. -/
abbrev Scope.Allows (s : Scope) (gives : Bool) (ts : List Token) : Prop :=
  IsOperation (s.labels.map (·.1)) (s.values.map (·.1)) gives ts

theorem allows_of_readAction {op : Op} {ts : List Token} {a : Action}
    (h : readAction s op ts = .ok a) : s.Allows op.defines (.ident op.name :: ts) := by
  cases readsTo_of_readAction h with
  | const x => exact .const x
  | arg hx => exact .arg (not_lt_zero_iff.mp hx)
  | binary hop hx hy =>
    obtain ⟨n, hn, rfl⟩ := value_ok hx
    obtain ⟨m, hm, rfl⟩ := value_ok hy
    rcases hop with rfl | rfl | rfl
    all_goals exact .binary (by decide) hn hm
  | cmp c hx hy =>
    obtain ⟨n, hn, rfl⟩ := value_ok hx
    obtain ⟨m, hm, rfl⟩ := value_ok hy
    exact .cmp (cond_iff.mpr ⟨c, rfl⟩) hn hm
  | call f hvs =>
    obtain ⟨ns, hns, rfl⟩ := values_ok hvs
    exact .call f hns
  | br hb =>
    obtain ⟨n, hn, rfl⟩ := label_ok hb
    exact .br hn
  | brif hx hyes hno =>
    obtain ⟨n, hn, rfl⟩ := value_ok hx
    obtain ⟨m, hm, rfl⟩ := label_ok hyes
    obtain ⟨k, hk, rfl⟩ := label_ok hno
    exact .brif hn hm hk
  | ret hlen hvs =>
    obtain ⟨ns, hns, rfl⟩ := values_ok hvs
    rcases ns with _ | ⟨n, _ | ⟨m, ns⟩⟩
    · exact .ret
    · exact .retValue (hns n List.mem_cons_self)
    · simp at hlen

/-- What may stand in a line is read to an action, of an operation that is known. -/
theorem readsTo_of_allows {gives : Bool} {ts : List Token} (h : s.Allows gives ts) :
    ∃ op args, ts = .ident op.name :: args ∧ op.isKnown = true ∧ op.defines = gives ∧
      ∃ a, s.ReadsTo op args a := by
  cases h with
  | const x => exact ⟨.const, _, rfl, rfl, rfl, _, .const x⟩
  | arg hx => exact ⟨.arg, _, rfl, rfl, rfl, _, .arg (not_lt_zero_iff.mpr hx)⟩
  | binary hw hx hy =>
    obtain ⟨v, hv⟩ := value_of_mem hx
    obtain ⟨u, hu⟩ := value_of_mem hy
    simp only [List.mem_cons, List.not_mem_nil, or_false] at hw
    rcases hw with rfl | rfl | rfl
    · exact ⟨.add, _, rfl, rfl, rfl, _, .binary (by simp) hv hu⟩
    · exact ⟨.sub, _, rfl, rfl, rfl, _, .binary (by simp) hv hu⟩
    · exact ⟨.mul, _, rfl, rfl, rfl, _, .binary (by simp) hv hu⟩
  | cmp hn hx hy =>
    obtain ⟨c, rfl⟩ := cond_iff.mp hn
    obtain ⟨v, hv⟩ := value_of_mem hx
    obtain ⟨w, hw⟩ := value_of_mem hy
    exact ⟨.cmp, _, rfl, rfl, rfl, _, .cmp c hv hw⟩
  | call f hvs =>
    obtain ⟨ws, hws⟩ := values_of_mem hvs
    exact ⟨.call, _, rfl, rfl, rfl, _, .call f hws⟩
  | br hl =>
    obtain ⟨b, hb⟩ := label_of_mem hl
    exact ⟨.br, _, rfl, rfl, rfl, _, .br hb⟩
  | brif hc hyes hno =>
    obtain ⟨v, hv⟩ := value_of_mem hc
    obtain ⟨b, hb⟩ := label_of_mem hyes
    obtain ⟨b', hb'⟩ := label_of_mem hno
    exact ⟨.brif, _, rfl, rfl, rfl, _, .brif hv hb hb'⟩
  | ret => exact ⟨.ret, [], rfl, rfl, rfl, _, .ret (Nat.zero_le 1) rfl⟩
  | @retValue v hv =>
    obtain ⟨ws, hws⟩ : ∃ ws, [Token.ident v].mapM s.value = .ok ws :=
      values_of_mem (List.forall_mem_singleton.mpr hv)
    exact ⟨.ret, [.ident v], rfl, rfl, rfl, _, .ret (Nat.le_refl 1) hws⟩

/-- No mark stands in an operation. -/
theorem IsOperation.mark_notMem {labels values : List String} {gives : Bool} {ts : List Token}
    (h : IsOperation labels values gives ts) (m : Mark) : .mark m ∉ ts := by
  cases h <;> simp

/-- An operation is read if it may stand there, and if it gives a value that is to have a name. -/
theorem readOperation_isOk {named : Bool} {ts : List Token} :
    (∃ a, readOperation s named ts = .ok a) ↔
      ∃ gives, (named = true → gives = true) ∧ s.Allows gives ts := by
  constructor
  · rintro ⟨a, h⟩
    unfold readOperation at h
    split at h
    · cases h
    · rename_i n args
      split at h
      · cases h
      · rename_i op hop
        have hname : op.name = n := by simpa using List.find?_some hop
        split at h
        · cases h
        · rename_i hnamed
          refine ⟨op.defines, ?_, hname ▸ allows_of_readAction h⟩
          rintro rfl
          simpa using hnamed
    · cases h
  · rintro ⟨gives, hnamed, hallows⟩
    obtain ⟨op, args, rfl, hknown, rfl, a, ha⟩ := readsTo_of_allows hallows
    refine ⟨a, ?_⟩
    unfold readOperation
    simp only [Op.ofName?_name hknown, ha.readAction]
    cases named with
    | false => rfl
    | true => simp [hnamed rfl]

/-- Where no mark stands, no name is given. -/
theorem readInstr_of_notMem {ts : List Token} (h : ∀ m, .mark m ∉ ts) :
    readInstr s ts = readOperation s false ts >>= fun a => pure (none, a) := by
  unfold readInstr
  split
  · exact absurd (by simp) (h .equals)
  · exact absurd (by simp) (h .equals)
  · rfl

theorem readInstr_isOk {given : Option String} {ts : List Token} :
    (∃ a, readInstr s ts = .ok (given, a)) ↔
      IsInstr (s.labels.map (·.1)) (s.values.map (·.1)) given ts := by
  constructor
  · rintro ⟨a, h⟩
    unfold readInstr at h
    split at h
    · rename_i n rest
      split at h
      · cases h
      · rename_i hnew
        obtain ⟨a', ha', h⟩ := bind_eq_ok.mp h
        cases h
        obtain ⟨gives, hgives, hallows⟩ := readOperation_isOk.mp ⟨_, ha'⟩
        rw [hgives rfl] at hallows
        exact .named (mt isSome_lookup.mpr hnew) hallows
    · cases h
    · obtain ⟨a', ha', h⟩ := bind_eq_ok.mp h
      cases h
      obtain ⟨gives, -, hallows⟩ := readOperation_isOk.mp ⟨_, ha'⟩
      exact .plain hallows
  · intro h
    cases h with
    | @plain gives l hallows =>
      obtain ⟨a, ha⟩ : ∃ a, readOperation s false ts = .ok a :=
        readOperation_isOk.mpr ⟨gives, by simp, hallows⟩
      refine ⟨a, ?_⟩
      rw [readInstr_of_notMem hallows.mark_notMem, ha]
      rfl
    | @named n l hnew hallows =>
      obtain ⟨a, ha⟩ : ∃ a, readOperation s true l = .ok a :=
        readOperation_isOk.mpr ⟨true, by simp, hallows⟩
      refine ⟨a, ?_⟩
      show (if (s.values.lookup n).isSome then _ else _) = _
      rw [if_neg (mt isSome_lookup.mp hnew), ha]
      rfl

end Instructions

/-! ## Bodies -/

theorem label?_eq_some {l : Line} {n : String} :
    l.label? = some n ↔ l.tokens = [.ident n, .mark .colon] := by
  unfold Line.label?
  constructor
  · intro h
    split at h
    · rename_i heq
      cases h
      exact heq
    · cases h
  · intro h
    rw [h]

/-- A label is no instruction. -/
theorem IsInstr.ne_label {labels values : List String} {given : Option String} {n : String} :
    ¬ IsInstr labels values given [.ident n, .mark .colon] := by
  intro h
  cases h with
  | plain hallows => exact hallows.mark_notMem .colon (by simp)

theorem step_of_label {d : Draft} {l : Line} {n : String} (hl : l.label? = some n) :
    d.step l = .ok { d with current := d.scope.labels.lookup n } := by
  unfold Draft.step
  rw [hl]

/-- What a line that is an instruction leaves: its value has a name, if it gives one. -/
theorem step_of_instr {d : Draft} {l : Line} {b : BlockId} (hl : l.label? = none)
    (hcurrent : d.current = some b) {given : Option String} {a : Action}
    (hr : readInstr d.scope l.tokens = .ok (given, a)) :
    ∃ d', d.step l = .ok d' ∧ d'.current = some b ∧
      d'.scope.labels = d.scope.labels ∧
      d'.scope.values.map (·.1) = d.scope.values.map (·.1) ++ given.toList := by
  unfold Draft.step
  rw [hl, hcurrent, hr]
  cases given with
  | none => exact ⟨_, rfl, rfl, rfl, by simp⟩
  | some n => exact ⟨_, rfl, rfl, rfl, by simp⟩

theorem isBody_label {labels values : List String} {n : String} {ls : List (List Token)} :
    IsBody labels values ([.ident n, .mark .colon] :: ls) ↔ IsBody labels values ls := by
  refine ⟨?_, .label n⟩
  intro h
  cases h with
  | label _ h => exact h
  | instr hi _ => exact absurd hi IsInstr.ne_label

/-- Under a label, the lines are read that make up a body. -/
theorem foldlM_step_isOk {ls : List Line} {d : Draft} {b : BlockId} (hcurrent : d.current = some b)
    (hlabels : ∀ n ∈ labelNames ls, n ∈ d.scope.labels.map (·.1)) :
    (∃ d', ls.foldlM Draft.step d = .ok d') ↔
      IsBody (d.scope.labels.map (·.1)) (d.scope.values.map (·.1)) (ls.map (·.tokens)) := by
  induction ls generalizing d b with
  | nil => exact ⟨fun _ => .nil, fun _ => ⟨d, rfl⟩⟩
  | cons l ls ih =>
    rw [List.foldlM_cons, List.map_cons]
    cases hl : l.label? with
    | some n =>
      rw [labelNames_cons_some hl] at hlabels
      obtain ⟨b', hb'⟩ := Option.isSome_iff_exists.mp
        (isSome_lookup.mpr (hlabels n List.mem_cons_self))
      rw [step_of_label hl, label?_eq_some.mp hl]
      have hrest := ih (d := { d with current := d.scope.labels.lookup n }) hb'
        fun m hm => hlabels m (List.mem_cons_of_mem n hm)
      exact hrest.trans isBody_label.symm
    | none =>
      rw [labelNames_cons_none hl] at hlabels
      constructor
      · rintro ⟨d', hd'⟩
        obtain ⟨d₁, hd₁, hd'⟩ := bind_eq_ok.mp hd'
        obtain ⟨-, given, a, -, hr⟩ := step_ok_of_current hl hd₁
        obtain ⟨d₂, hd₂, hcur, hlab, hval⟩ := step_of_instr hl hcurrent hr
        rw [hd₂] at hd₁
        cases hd₁
        refine .instr (readInstr_isOk.mp ⟨a, hr⟩) ?_
        rw [← hlab, ← hval]
        exact (ih hcur (by rwa [hlab])).mp ⟨d', hd'⟩
      · intro h
        generalize htokens : l.tokens = ts at h
        cases h with
        | label n h =>
          rw [label?_eq_some.mpr htokens] at hl
          cases hl
        | instr hi h =>
          rw [← htokens] at hi
          obtain ⟨a, hr⟩ := readInstr_isOk.mpr hi
          obtain ⟨d₂, hd₂, hcur, hlab, hval⟩ := step_of_instr hl hcurrent hr
          rw [← hlab, ← hval] at h
          obtain ⟨d', hd'⟩ := (ih hcur (by rwa [hlab])).mpr h
          exact ⟨d', bind_eq_ok.mpr ⟨d₂, hd₂, hd'⟩⟩

/-- Before the first label nothing is read but a label. -/
theorem foldlM_step_start {ls : List Line} {d : Draft} (hcurrent : d.current = none)
    (hne : ls ≠ []) (hlabels : ∀ n ∈ labelNames ls, n ∈ d.scope.labels.map (·.1)) :
    (∃ d', ls.foldlM Draft.step d = .ok d') ↔
      (∃ n rest, ls.map (·.tokens) = [.ident n, .mark .colon] :: rest) ∧
        IsBody (d.scope.labels.map (·.1)) (d.scope.values.map (·.1)) (ls.map (·.tokens)) := by
  obtain ⟨l, ls, rfl⟩ := List.exists_cons_of_ne_nil hne
  rw [List.foldlM_cons, List.map_cons]
  cases hl : l.label? with
  | some n =>
    rw [labelNames_cons_some hl] at hlabels
    obtain ⟨b, hb⟩ := Option.isSome_iff_exists.mp
      (isSome_lookup.mpr (hlabels n List.mem_cons_self))
    rw [step_of_label hl, label?_eq_some.mp hl, isBody_label]
    have hrest := foldlM_step_isOk (d := { d with current := d.scope.labels.lookup n }) hb
      fun m hm => hlabels m (List.mem_cons_of_mem n hm)
    exact hrest.trans ⟨fun h => ⟨⟨n, _, rfl⟩, h⟩, fun h => h.2⟩
  | none =>
    constructor
    · rintro ⟨d', hd'⟩
      obtain ⟨d₁, hd₁, -⟩ := bind_eq_ok.mp hd'
      obtain ⟨b, -, -, hb, -⟩ := step_ok_of_current hl hd₁
      rw [hcurrent] at hb
      cases hb
    · rintro ⟨⟨n, rest, hfirst⟩, -⟩
      rw [label?_eq_some.mpr (List.cons.inj hfirst).1] at hl
      cases hl

/-! ## Functions -/

theorem enter_isOk {d : Draft} {header : Line} {entry : Option String} :
    (∃ d', d.enter header entry = .ok d') ↔
      ∀ l, entry = some l → l ∈ d.scope.labels.map (·.1) := by
  unfold Draft.enter
  cases entry with
  | none => simp
  | some l =>
    simp only [Option.some.injEq, forall_eq', ← isSome_lookup]
    cases d.scope.labels.lookup l <;> simp

/-- Moving the entry is no matter of names. -/
theorem enter_keeps {d d' : Draft} {header : Line} {entry : Option String}
    (h : d.enter header entry = .ok d') : d'.scope = d.scope ∧ d'.current = d.current := by
  unfold Draft.enter at h
  split at h
  · cases h
    exact ⟨rfl, rfl⟩
  · split at h
    · cases h
    · cases h
      exact ⟨rfl, rfl⟩

/-- The function that lines make up. -/
def funcOf (name : String) (entry : Option String) (body : List Line) : Func :=
  { name := name, entry := entry, body := body.map (·.tokens) }

theorem labels_funcOf (name : String) (entry : Option String) (body : List Line) :
    (funcOf name entry body).labels = labelNames body := by
  unfold Func.labels funcOf labelNames
  rw [List.filterMap_map]
  rfl

/-- A body is read if its first line is a label, no label comes twice, the entry is one of them
and each line is a label or an instruction. -/
theorem readBody_isOk {header : Line} {name : String} {entry : Option String} {body : List Line}
    (hplain : ∀ l ∈ body, l.Plain) :
    (∃ g, readBody header name entry body = .ok g) ↔
      (∃ n rest, body.map (·.tokens) = [.ident n, .mark .colon] :: rest) ∧
        (labelNames body).Nodup ∧ (∀ l, entry = some l → l ∈ labelNames body) ∧
        IsBody (labelNames body) [] (body.map (·.tokens)) := by
  have hnames : (declared name (labelNames body)).scope.labels.map (·.1) = labelNames body :=
    map_fst_labelsOf _
  have hempty : (declared name (labelNames body)).graph.order.isEmpty = true ↔
      labelNames body = [] := by
    simp [declared, bare, Outline.graph]
  have hrun : ∀ d : Draft, d.scope = (declared name (labelNames body)).scope →
      d.current = none → body ≠ [] →
      ((∃ d', body.foldlM Draft.step d = .ok d') ↔
        (∃ n rest, body.map (·.tokens) = [.ident n, .mark .colon] :: rest) ∧
          IsBody (labelNames body) [] (body.map (·.tokens))) := by
    intro d hscope hcurrent hne
    have h := foldlM_step_start hcurrent hne
      (by rw [hscope, hnames]; exact fun n hn => hn)
    rw [hscope, hnames] at h
    exact h
  constructor
  · rintro ⟨g, h⟩
    unfold readBody at h
    obtain ⟨d₁, hd₁, h⟩ := bind_eq_ok.mp h
    obtain ⟨hnodup, rfl⟩ := (declare_start hplain).mp hd₁
    split at h
    · cases h
    · rename_i hblocks
      obtain ⟨d₂, hd₂, h⟩ := bind_eq_ok.mp h
      obtain ⟨d₃, hd₃, -⟩ := bind_eq_ok.mp h
      obtain ⟨hscope, hcurrent⟩ := enter_keeps hd₂
      have hne : body ≠ [] := by
        rintro rfl
        exact hblocks rfl
      obtain ⟨hfirst, hbody⟩ := (hrun d₂ hscope hcurrent hne).mp ⟨d₃, hd₃⟩
      have hentry := enter_isOk.mp ⟨d₂, hd₂⟩
      rw [hnames] at hentry
      exact ⟨hfirst, hnodup, hentry, hbody⟩
  · rintro ⟨hfirst, hnodup, hentry, hbody⟩
    obtain ⟨d₂, hd₂⟩ : ∃ d, (declared name (labelNames body)).enter header entry = .ok d :=
      enter_isOk.mpr (by rw [hnames]; exact hentry)
    obtain ⟨hscope, hcurrent⟩ := enter_keeps hd₂
    -- the first line is a label, so there is a label
    obtain ⟨n, rest, hmap⟩ := hfirst
    obtain ⟨l, ls, rfl, hl, -⟩ := List.map_eq_cons_iff.mp hmap
    have hsome : ¬ (declared name (labelNames (l :: ls))).graph.order.isEmpty = true := by
      rw [hempty, labelNames_cons_some (label?_eq_some.mpr hl)]
      simp
    obtain ⟨d₃, hd₃⟩ := (hrun d₂ hscope hcurrent (by simp)).mpr ⟨⟨n, rest, hmap⟩, hbody⟩
    refine ⟨d₃.graph, bind_eq_ok.mpr ⟨_, (declare_start hplain).mpr ⟨hnodup, rfl⟩, ?_⟩⟩
    rw [if_neg hsome]
    exact bind_eq_ok.mpr ⟨d₂, hd₂, bind_eq_ok.mpr ⟨d₃, hd₃, rfl⟩⟩

/-- A header is read to what it says. -/
theorem readHeader_eq_ok {ts : List Token} {name : String} {entry : Option String}
    (body : List (List Token)) :
    readHeader ts = .ok (name, entry) ↔ ts = Func.header ⟨name, entry, body⟩ := by
  constructor
  · intro h
    unfold readHeader at h
    split at h
    · cases h
    · rename_i hshape
      simp only [not_or, not_not] at hshape
      obtain ⟨-, hfirst, hlast⟩ := hshape
      -- of the two shapes that are read, the first and the last token are known
      split at h
      · cases h
        cases hfirst
        cases hlast
        rfl
      · split at h
        · split at h
          · rename_i hkey
            cases h
            cases hfirst
            cases hlast
            rw [hkey]
            rfl
          · cases h
        · cases h
      · cases h
      · cases h
      · cases h
  · rintro rfl
    cases entry with
    | none => simp [Func.header, readHeader]
    | some l => simp [Func.header, readHeader]

theorem isClosing_iff {l : Line} : l.isClosing = true ↔ l.tokens = [.mark .closeBrace] := by
  unfold Line.isClosing
  rw [beq_iff_eq]

/-- The lines of a function are its header, its body and a closing brace. -/
theorem lines_funcOf {header close : Line} {name : String} {entry : Option String}
    {body : List Line} (hheader : readHeader header.tokens = .ok (name, entry))
    (hclose : close.isClosing = true) :
    (header :: (body ++ [close])).map (·.tokens) = (funcOf name entry body).lines := by
  rw [List.map_cons, List.map_append, List.map_singleton, isClosing_iff.mp hclose,
    (readHeader_eq_ok (body.map (·.tokens))).mp hheader]
  rfl

theorem proper_funcOf (header : Line) {name : String} {entry : Option String} {body : List Line}
    (hplain : ∀ l ∈ body, l.Plain) (hopen : ∀ l ∈ body, l.isClosing = false) :
    (∃ g, readBody header name entry body = .ok g) ↔ (funcOf name entry body).Proper := by
  rw [readBody_isOk hplain, ← labels_funcOf name entry body]
  constructor
  · rintro ⟨hfirst, hnodup, hentry, hbody⟩
    refine ⟨?_, hfirst, hnodup, hentry, hbody⟩
    intro ts hts heq
    obtain ⟨l, hl, rfl⟩ := List.mem_map.mp hts
    have := hopen l hl
    rw [isClosing_iff.mpr heq] at this
    cases this
  · intro h
    exact ⟨h.starts, h.distinct, h.entry, h.body⟩

theorem name_of_readBody {header : Line} {name : String} {entry : Option String}
    {body : List Line} {g : Graph} (hname : IsIdent name) (hplain : ∀ l ∈ body, l.Plain)
    (h : readBody header name entry body = .ok g) : g.name = name := by
  obtain ⟨o, -, hon, rfl⟩ := readBody_spec hname hplain h
  exact hon

/-! ## Programs -/

/-- Where functions are read, the body of the first is. -/
theorem readBody_of_readFunctions {done gs : List Graph} {header close : Line}
    {body rest : List Line} {name : String} {entry : Option String}
    (hheader : readHeader header.tokens = .ok (name, entry))
    (hopen : ∀ l ∈ body, l.isClosing = false) (hclose : close.isClosing = true)
    (h : readFunctions done (header :: (body ++ close :: rest)) = .ok gs) :
    ∃ g, readBody header name entry body = .ok g ∧ readFunctions (done ++ [g]) rest = .ok gs := by
  obtain ⟨htake, hdrop⟩ := cut_at_closing rest hopen hclose
  rw [readFunctions] at h
  simp only [hheader, hdrop, htake, List.tail_cons] at h
  split at h
  · cases h
  · rename_i g hg
    split at h
    · cases h
    · exact ⟨g, hg, h⟩

/-- Lines that are read to functions are those of functions with names of their own. -/
theorem lines_of_readFunctions {done gs : List Graph} {ls : List Line}
    (hplain : ∀ l ∈ ls, l.Plain) (hdone : (done.map (·.name)).Nodup)
    (h : readFunctions done ls = .ok gs) :
    ∃ fs : List Func, ls.map (·.tokens) = fs.flatMap Func.lines ∧
      (done.map (·.name) ++ fs.map (·.name)).Nodup ∧ ∀ f ∈ fs, f.Proper := by
  fun_induction readFunctions done ls with
  | case1 done => exact ⟨[], rfl, by simpa using hdone, by simp⟩
  | case2 => cases h
  | case3 => cases h
  | case4 => cases h
  | case5 => cases h
  | case6 done header rest name entry hheader close after hclose g hbody hnew ih =>
    obtain ⟨hsplit, hclosing, hopen⟩ := split_at_closing hclose
    generalize rest.takeWhile (fun l => !l.isClosing) = body at hsplit hopen hbody
    subst hsplit
    have hbodyPlain : ∀ l ∈ body, l.Plain := fun l hl => hplain l (by simp [hl])
    have hname : g.name = name :=
      name_of_readBody (hplain header (by simp) name (readHeader_ok hheader)) hbodyPlain hbody
    have hnames : ((done ++ [g]).map (·.name)).Nodup := by
      rw [List.map_append, List.map_singleton, hname, List.nodup_append]
      refine ⟨hdone, List.nodup_singleton name, ?_⟩
      rintro n hn m hm rfl
      obtain ⟨f, hf, rfl⟩ := List.mem_map.mp hn
      exact hnew (List.any_eq_true.mpr ⟨f, hf, beq_iff_eq.mpr (List.mem_singleton.mp hm)⟩)
    rw [hclose] at ih h
    obtain ⟨fs, hlines, hdistinct, hproper⟩ := ih (fun l hl => hplain l (by simp_all)) hnames h
    refine ⟨funcOf name entry body :: fs, ?_, ?_, ?_⟩
    · rw [List.flatMap_cons, ← lines_funcOf hheader hclosing, ← hlines]
      simp
    · simpa [hname, funcOf] using hdistinct
    · rw [List.forall_mem_cons]
      exact ⟨(proper_funcOf header hbodyPlain hopen).mp ⟨g, hbody⟩, hproper⟩

/-- The lines of functions start with those of the first: its header, its body and the closing
brace. -/
theorem lines_cons {f : Func} {fs : List Func} {ls : List Line}
    (h : ls.map (·.tokens) = (f :: fs).flatMap Func.lines) :
    ∃ header body close rest, ls = header :: (body ++ close :: rest) ∧
      readHeader header.tokens = .ok (f.name, f.entry) ∧ f = funcOf f.name f.entry body ∧
      close.isClosing = true ∧ rest.map (·.tokens) = fs.flatMap Func.lines := by
  obtain ⟨name, entry, tss⟩ := f
  obtain ⟨first, rest, rfl, hfirst, hrest⟩ := List.map_eq_append_iff.mp h
  obtain ⟨header, others, rfl, hheader, hothers⟩ := List.map_eq_cons_iff.mp hfirst
  obtain ⟨body, last, rfl, rfl, hlast⟩ := List.map_eq_append_iff.mp hothers
  obtain ⟨close, rfl, hclose⟩ := List.map_eq_singleton_iff.mp hlast
  refine ⟨header, body, close, rest, by simp, (readHeader_eq_ok _).mpr hheader, rfl,
    isClosing_iff.mpr hclose, hrest⟩

/-- No line of a body that has no closing brace is one. -/
theorem isClosing_of_inside {name : String} {entry : Option String} {body : List Line}
    (h : ∀ ts ∈ (funcOf name entry body).body, ts ≠ [.mark .closeBrace]) :
    ∀ l ∈ body, l.isClosing = false := by
  intro l hl
  rw [Bool.eq_false_iff, Ne, isClosing_iff]
  exact h _ (List.mem_map_of_mem hl)

/-- The lines of functions with names of their own are read. -/
theorem readFunctions_of_lines {fs : List Func} {done : List Graph} {ls : List Line}
    (hplain : ∀ l ∈ ls, l.Plain) (hlines : ls.map (·.tokens) = fs.flatMap Func.lines)
    (hdistinct : (done.map (·.name) ++ fs.map (·.name)).Nodup) (hproper : ∀ f ∈ fs, f.Proper) :
    ∃ gs, readFunctions done ls = .ok gs := by
  induction fs generalizing done ls with
  | nil =>
    obtain rfl : ls = [] := List.map_eq_nil_iff.mp hlines
    exact ⟨done, by rw [readFunctions]⟩
  | cons f fs ih =>
    rw [List.forall_mem_cons] at hproper
    obtain ⟨header, body, close, rest, rfl, hheader, hf, hclose, hrest⟩ := lines_cons hlines
    have hbodyPlain : ∀ l ∈ body, l.Plain := fun l hl => hplain l (by simp [hl])
    have hfirst := hproper.1
    rw [hf] at hfirst
    have hopen := isClosing_of_inside hfirst.inside
    obtain ⟨g, hbody⟩ := (proper_funcOf header hbodyPlain hopen).mpr hfirst
    have hname : g.name = f.name :=
      name_of_readBody (hplain header (by simp) _ (readHeader_ok hheader)) hbodyPlain hbody
    have hnew : f.name ∉ done.map (·.name) := by
      intro hmem
      exact (List.nodup_append.mp hdistinct).2.2 _ hmem _ (by simp) rfl
    rw [readFunctions_cons hheader hopen hclose hbody hnew]
    refine ih (fun l hl => hplain l (by simp [hl])) hrest ?_ hproper.2
    simpa [hname] using hdistinct

/-- Functions that are read from lines are proper, where none has a closing brace inside. -/
theorem proper_of_readFunctions {fs : List Func} {done gs : List Graph} {ls : List Line}
    (hplain : ∀ l ∈ ls, l.Plain) (hlines : ls.map (·.tokens) = fs.flatMap Func.lines)
    (hinside : ∀ f ∈ fs, ∀ ts ∈ f.body, ts ≠ [.mark .closeBrace])
    (h : readFunctions done ls = .ok gs) : ∀ f ∈ fs, f.Proper := by
  induction fs generalizing done ls with
  | nil => simp
  | cons f fs ih =>
    rw [List.forall_mem_cons] at hinside
    obtain ⟨header, body, close, rest, rfl, hheader, hf, hclose, hrest⟩ := lines_cons hlines
    have hfirst := hinside.1
    rw [hf] at hfirst
    have hopen := isClosing_of_inside hfirst
    obtain ⟨g, hbody, hgs⟩ := readBody_of_readFunctions hheader hopen hclose h
    refine List.forall_mem_cons.mpr ⟨?_, ih (fun l hl => hplain l (by simp [hl])) hrest hinside.2 hgs⟩
    rw [hf]
    exact (proper_funcOf header (fun l hl => hplain l (by simp [hl])) hopen).mp ⟨g, hbody⟩

/-- A text is read if and only if the grammar has it. -/
theorem the_reader_accepts_the_grammar (path : String) (text : List UInt8) :
    (∃ p, read path text = .ok p) ↔ IsProgramText text := by
  constructor
  · rintro ⟨p, h⟩
    unfold read at h
    split at h
    · cases h
    · rename_i ls hls
      obtain ⟨gs, hgs, rfl⟩ := map_eq_ok.mp h
      obtain ⟨tss, hcuts, hmap⟩ := cuts_of_linesOf hls
      obtain ⟨fs, hlines, hdistinct, hproper⟩ :=
        lines_of_readFunctions (plain_of_numberedLines hls) (by simp) hgs
      exact ⟨tss, hcuts, fs, hmap.symm.trans hlines, hdistinct, hproper⟩
  · rintro ⟨tss, hcuts, fs, hlines, hdistinct, hproper⟩
    obtain ⟨ls, hls, hmap⟩ := linesOf_of_cuts hcuts
    obtain ⟨gs, hgs⟩ : ∃ gs, readFunctions [] ls = .ok gs :=
      readFunctions_of_lines (plain_of_numberedLines hls) (hmap.trans hlines) hdistinct hproper
    refine ⟨⟨path, gs⟩, ?_⟩
    unfold read
    rw [hls]
    exact map_eq_ok.mpr ⟨gs, hgs, rfl⟩

end FlowGraph.Text

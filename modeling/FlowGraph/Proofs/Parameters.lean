import FlowGraph.Proofs.OptimizedLowering

/-!
The number of parameters of a function, which is counted in 64 bits. It is one
more than the largest index of an argument, and the largest index that can be
written has none above it: there the count runs over, and starts anew with the
arguments that are read after it. Only then can an argument be out of range.
-/

namespace FlowGraph

/-! ## The count -/

/-- The argument with the largest index that there is. -/
def Instr.ReadsTop (i : Instr) : Prop := i.op = .arg ∧ i.imm = Int64.maxValue

instance (i : Instr) : Decidable i.ReadsTop := inferInstanceAs (Decidable (_ ∧ _))

section Count

variable {is before after : List Instr} {i : Instr} {start : Int64}

/-- Without arguments there is nothing to count. -/
theorem foldl_count_bare (h : ∀ i ∈ is, i.op ≠ .arg) : is.foldl Instr.count start = start := by
  induction is with
  | nil => rfl
  | cons i is ih =>
    obtain ⟨hi, his⟩ := List.forall_mem_cons.mp h
    rw [List.foldl_cons, Instr.count, if_neg (fun hread => hi hread.1)]
    exact ih his

/-- A count below zero is raised by the first argument, as one of zero is. -/
theorem foldl_count_low (hstart : start.toInt ≤ 0) (hlow : ∀ i ∈ is, i.op = .arg → 0 ≤ i.imm.toInt)
    (hread : ∃ i ∈ is, i.op = .arg) : is.foldl Instr.count start = is.foldl Instr.count 0 := by
  induction is with
  | nil => simp at hread
  | cons i is ih =>
    obtain ⟨hi, his⟩ := List.forall_mem_cons.mp hlow
    rw [List.foldl_cons, List.foldl_cons]
    by_cases hop : i.op = .arg
    · -- both counts are one more than this index from here on
      have hzero : (0 : Int64) ≤ i.imm := Int64.le_iff_toInt_le.mpr (hi hop)
      have hbelow : start ≤ i.imm := Int64.le_iff_toInt_le.mpr (Int.le_trans hstart (hi hop))
      simp only [Instr.count, hop, hzero, hbelow, and_self, if_true]
    · simp only [Instr.count, hop, false_and, if_false]
      apply ih his
      simpa [hop] using hread

/-- The largest index makes the count run over, whatever it was. -/
theorem foldl_count_top (hi : i.ReadsTop) :
    (before ++ i :: after).foldl Instr.count start = after.foldl Instr.count Int64.minValue := by
  have hle : before.foldl Instr.count start ≤ Int64.maxValue := by
    rw [Int64.le_iff_toInt_le]
    exact Int64.toInt_le _
  rw [List.foldl_append, List.foldl_cons, Instr.count, hi.2, if_pos ⟨hi.1, hle⟩]
  rfl

/-- Where the largest index is not read, the count is the number of arguments. -/
theorem foldl_count (hlow : ∀ i ∈ is, i.op = .arg → 0 ≤ i.imm.toInt)
    (hno : ∀ i ∈ is, ¬ i.ReadsTop) :
    ∃ n : Nat, (is.foldl Instr.count 0).toInt = n ∧ Takes (· ∈ is) n := by
  -- every index is below the largest one, so one more than it is exact
  have hbelow : ∀ i ∈ is, i.op = .arg → 0 ≤ i.imm.toInt ∧ i.imm.toInt < (2 ^ 63 - 1 : Nat) := by
    intro i hi hop
    have hle := Int64.toInt_le i.imm
    have hne : i.imm.toInt ≠ Int64.maxValue.toInt := fun heq =>
      hno i hi ⟨hop, Int64.toInt_inj.mp heq⟩
    have hmax : Int64.maxValue.toInt = 9223372036854775807 := rfl
    exact ⟨hlow i hi hop, by omega⟩
  have hzero : (0 : Int64).toInt = (0 : Nat) := rfl
  obtain ⟨n, -, hn, hleast⟩ := foldl_arity (by decide) hzero (Nat.zero_le _) hbelow
  exact ⟨n, hn, by simpa [Takes] using hleast⟩

/-- The number of arguments is one more than the largest index. -/
theorem Takes.eq_succ {n : Nat} (h : Takes (· ∈ is) n) (hi : i ∈ is) (hop : i.op = .arg)
    (hlow : 0 ≤ i.imm.toInt) (hmax : ∀ j ∈ is, j.op = .arg → j.imm ≤ i.imm) :
    (n : Int) = i.imm.toInt + 1 := by
  obtain ⟨habove, hleast⟩ := h
  have hlt := habove i hi hop
  have hle : n ≤ i.imm.toInt.toNat + 1 := by
    apply hleast
    intro j hj hopj
    have := Int64.le_iff_toInt_le.mp (hmax j hj hopj)
    omega
  omega

end Count

/-- No count is above the largest index. -/
theorem Instr.ReadsTop.not_inRange {i : Instr} (h : i.ReadsTop) (n : Int64) :
    ¬ Lower.InRange n.toInt i := by
  intro hin
  have hlt := (hin h.1).2
  rw [h.2] at hlt
  exact Int.not_lt.mpr (Int64.toInt_le n) hlt

/-- A function in which no argument has an index below zero, as in all that are read. -/
def Graph.Natural (g : Graph) : Prop := ∀ i ∈ g.instrs, i.op = .arg → 0 ≤ i.imm.toInt

namespace Graph

variable {g : Graph} {before after : List Instr} {i : Instr}

theorem Natural.arity (h : g.Natural) (hno : ∀ i ∈ g.instrs, ¬ i.ReadsTop) :
    ∃ n : Nat, g.arity.toInt = n ∧ Takes (· ∈ g.instrs) n :=
  foldl_count h hno

theorem Natural.inRange (h : g.Natural) (hno : ∀ i ∈ g.instrs, ¬ i.ReadsTop) :
    ∀ i ∈ g.instrs, Lower.InRange g.arity.toInt i := by
  obtain ⟨n, hn, habove, -⟩ := h.arity hno
  intro i hi hop
  exact ⟨h i hi hop, hn ▸ habove i hi hop⟩

theorem Natural.arity_succ (h : g.Natural) (hno : ∀ i ∈ g.instrs, ¬ i.ReadsTop)
    (hi : i ∈ g.instrs) (hop : i.op = .arg)
    (hmax : ∀ j ∈ g.instrs, j.op = .arg → j.imm ≤ i.imm) : g.arity.toInt = i.imm.toInt + 1 := by
  obtain ⟨n, hn, htakes⟩ := h.arity hno
  rw [hn]
  exact htakes.eq_succ hi hop (h i hi hop) hmax

theorem arity_run_over (hsplit : g.instrs = before ++ i :: after) (hi : i.ReadsTop)
    (hbare : ∀ j ∈ after, j.op ≠ .arg) : g.arity = Int64.minValue := by
  rw [arity, hsplit, foldl_count_top hi, foldl_count_bare hbare]

/-- The count starts anew after the largest index. -/
theorem Natural.arity_anew (h : g.Natural) (hsplit : g.instrs = before ++ i :: after)
    (hi : i.ReadsTop) (hlast : ∀ j ∈ after, ¬ j.ReadsTop) {j : Instr} (hj : j ∈ after)
    (hop : j.op = .arg) (hmax : ∀ l ∈ after, l.op = .arg → l.imm ≤ j.imm) :
    0 < g.arity.toInt ∧ g.arity.toInt = j.imm.toInt + 1 := by
  have hlow : ∀ l ∈ after, l.op = .arg → 0 ≤ l.imm.toInt := fun l hl =>
    h l (by simp [hsplit, hl])
  obtain ⟨n, hn, htakes⟩ := foldl_count hlow hlast
  have heq := htakes.eq_succ hj hop (hlow j hj hop) hmax
  rw [Graph.arity, hsplit, foldl_count_top hi, foldl_count_low (by decide) hlow ⟨j, hj, hop⟩, hn]
  have := hlow j hj hop
  exact ⟨by omega, heq⟩

theorem declare?_run_over (h : g.arity = Int64.minValue) : Lower.declare? g = none := by
  have hneg : g.arity.toInt < 0 := by
    rw [h]
    decide
  unfold Lower.declare?
  exact if_pos (.inl hneg)

end Graph

/-! ## Lowering what was not checked -/

namespace Lower

variable {s s' : Symbols} {f f' : Frame} {k : Nat} {i : Instr}

/-- Lowering a graph that was not checked keeps the heads of functions too. -/
theorem lowerGraph_keeps {place : Nat} {g : Graph} (h : lowerGraph s place g = .ok s') :
    s.Keeps s' := by
  obtain ⟨e, entry, function, order, s₁, f, -, -, hfun, -, hblocks, rfl⟩ := lowerGraph_ok h
  obtain ⟨ws, hwrote⟩ := wrote_of_lowerBlocks hblocks
  obtain ⟨-, hname, hparams⟩ := openFrame_head function g entry
  -- the function goes back to its place with the head that stands there
  exact hwrote.grows.keeps.trans (Symbols.keeps_set (hwrote.grows.getElem? hfun)
    (hwrote.name.trans hname) (hwrote.params.trans hparams))

/-! ## Arguments out of range -/

/-- The failure is that of an argument which is out of range. -/
def OutOfRange (e : LowerError) : Prop :=
  ∃ block id op n, e = .instr block id op (.argumentOutOfRange n)

theorem OutOfRange.ne_crash {e : LowerError} (h : OutOfRange e) : e ≠ .crash := by
  obtain ⟨block, id, op, n, rfl⟩ := h
  exact nofun

/-- The function has no such argument when the instruction is refused, nor before. -/
theorem Fails.outOfRange {bs : List (Option Block)} {r : Symbols × Frame} {e : LowerError}
    (h : Fails bs r e) (he : OutOfRange e) :
    ∃ b, some b ∈ bs ∧ ∃ i ∈ b.code, ¬ InRange r.2.function.params i := by
  obtain ⟨block, id, op, n, he⟩ := he
  cases h with
  | lost _ _ => cases he
  | @refused b _ _ _ i _ _ hb hi _ hrun hstop =>
    cases lowerInstr_refuses hstop with
    | range hno =>
      rw [(wrote_of_steps hrun).params] at hno
      exact ⟨b, hb, i, hi, hno⟩
    | _ => cases he

/-- Only blocks of the graph are lowered. -/
theorem block?_of_lowerOrder? {g : Graph} {e : BlockId} {order : List (Option Block)}
    (h : g.lowerOrder? e = some order) {b : Block} (hb : some b ∈ order) :
    ∃ x, g.block? x = some b := by
  obtain ⟨r, -, rfl⟩ := Option.map_eq_some_iff.mp h
  rcases List.mem_append.mp hb with hb | hb
  · obtain ⟨x, -, hx⟩ := List.mem_map.mp hb
    exact ⟨x, hx⟩
  · obtain ⟨b', hb', heq⟩ := List.mem_map.mp hb
    cases heq
    obtain ⟨x, -, hx⟩ := Graph.mem_blocks.mp (List.mem_filter.mp hb').1
    exact ⟨x, hx⟩

theorem lowerGraph_outOfRange {place : Nat} {g : Graph} {function : Llvm.Function}
    (hfun : s.functions[place]? = some function) {e : LowerError}
    (h : lowerGraph s place g = .error e) (he : OutOfRange e) :
    ∃ x b, g.block? x = some b ∧ ∃ i ∈ b.code, ¬ InRange function.params i := by
  rcases fails_of_lowerGraph h with
    ⟨v, rfl⟩ | rfl | ⟨function', id, entry, order, hfun', -, horder, hfails⟩
  · obtain ⟨block, id, op, n, he⟩ := he
    cases he
  · exact absurd rfl he.ne_crash
  · rw [hfun] at hfun'
    cases hfun'
    obtain ⟨b, hb, i, hi, hno⟩ := hfails.outOfRange he
    obtain ⟨x, hx⟩ := block?_of_lowerOrder? horder hb
    rw [(openFrame_head function g entry).2.2] at hno
    exact ⟨x, b, hx, i, hi, hno⟩

/-- A function whose lowering fails so has an argument above its own count. -/
theorem lowerAll_outOfRange {gs : List Graph} (hdeclares : Declares s gs) {name : String}
    {e : LowerError} (h : lowerAll gs s = .error (name, e)) (he : OutOfRange e) :
    ∃ g ∈ gs, g.name = name ∧ ∃ x b, g.block? x = some b ∧
      ∃ i ∈ b.code, ¬ InRange g.arity.toInt i := by
  induction gs generalizing s with
  | nil => cases h
  | cons g gs ih =>
    obtain ⟨place, function, hplace, hfun, hparams⟩ := hdeclares g List.mem_cons_self
    rw [lowerAll, hplace] at h
    dsimp only at h
    split at h
    · rename_i hone
      cases h
      obtain ⟨x, b, hx, hi⟩ := lowerGraph_outOfRange hfun hone he
      rw [hparams] at hi
      exact ⟨g, List.mem_cons_self, rfl, x, b, hx, hi⟩
    · -- the functions that are left are still declared with their counts
      rename_i s₁ hone
      obtain ⟨g', hg', hfound⟩ := ih (hdeclares.tail (lowerGraph_keeps hone)) h
      exact ⟨g', List.mem_cons_of_mem g hg', hfound⟩

end Lower

/-! ## Functions that are read -/

theorem Action.Proper.arg_nonneg {labels : Nat} {given : ValueId → Prop} {a : Action}
    (h : a.Proper labels given) (hop : a.op = .arg) : 0 ≤ a.imm.toInt := by
  cases h with
  | arg hx =>
    rw [Int64.lt_iff_toInt_lt] at hx
    exact Int.not_lt.mp hx
  | binary hop' => rcases hop' with rfl | rfl | rfl <;> cases hop
  | const | cmp | call | br | brif | ret => cases hop

namespace Outline

/-- A block that is there is listed. -/
theorem mem_order_of_block? {o : Outline} {x : BlockId} {b : Block}
    (h : o.graph.block? x = some b) : x ∈ o.graph.order := by
  obtain ⟨k, rfl⟩ := Int.eq_ofNat_of_zero_le (Graph.nonneg_of_block? h)
  rw [o.block?_graph k] at h
  have hlt := (List.getElem?_eq_some_iff.mp h).1
  rw [length_blocksFrom] at hlt
  exact mem_order_graph.mpr ⟨k, hlt, rfl⟩

end Outline

/-- An argument out of range comes with the largest index, which is read before another. -/
theorem Graph.Natural.top_of_outOfRange {g : Graph} (h : g.Natural) {f : Llvm.Function}
    (hdeclare : Lower.declare? g = some f) {i : Instr} (hi : i ∈ g.instrs)
    (hno : ¬ Lower.InRange g.arity.toInt i) :
    ∃ before j after, g.instrs = before ++ j :: after ∧ j.ReadsTop ∧
      ∃ l ∈ after, l.op = .arg ∧ ¬ l.ReadsTop := by
  have htop : ∃ j ∈ g.instrs, j.ReadsTop := by
    by_contra hnone
    simp only [not_exists, not_and] at hnone
    exact hno (h.inRange hnone i hi)
  obtain ⟨before, j, after, hsplit, hj, hlast⟩ := exists_last htop
  refine ⟨before, j, after, hsplit, hj, ?_⟩
  by_contra hnone
  -- nothing is counted after it, so the function has no declaration
  have hbare : ∀ l ∈ after, l.op ≠ .arg := fun l hl hop => hnone ⟨l, hl, hop, hlast l hl⟩
  rw [declare?_run_over (arity_run_over hsplit hj hbare)] at hdeclare
  cases hdeclare

namespace Program

theorem lower_run_over {p : Program} {g : Graph} (hg : g ∈ p.functions)
    (hdeclare : Lower.declare? g = none) : p.lower = .error ("", .crash) := by
  unfold Program.lower
  cases hfs : p.functions.mapM Lower.declare? with
  | none => rfl
  | some fs =>
    have := exists_mapM_eq_some.mp ⟨fs, hfs⟩ g hg
    rw [hdeclare] at this
    cases this

/-- A program that fails in some function has all its functions declared. -/
theorem lower_eq_error {p : Program} {name : String} {e : LowerError} (he : e ≠ .crash)
    (h : p.lower = .error (name, e)) :
    ∃ fs, List.Forall₂ (fun g f => Lower.declare? g = some f) p.functions fs ∧
      Lower.lowerAll p.functions (Lower.declared fs) = .error (name, e) := by
  unfold Program.lower at h
  split at h
  · cases h
    exact absurd rfl he
  · rename_i fs hfs
    refine ⟨fs, mapM_eq_some.mp hfs, ?_⟩
    change (Lower.lowerAll p.functions (Lower.declared fs)).map _ = _ at h
    cases hall : Lower.lowerAll p.functions (Lower.declared fs) with
    | error e' =>
      rw [hall] at h
      cases h
      rfl
    | ok s =>
      rw [hall] at h
      cases h

section Read

variable {path : String} {text : List UInt8} {p : Program} (hread : Text.read path text = .ok p)

include hread

theorem natural_of_read : ∀ g ∈ p.functions, g.Natural := by
  intro g hg i hi hop
  obtain ⟨o, ho, rfl⟩ := (Text.wellRead_of_read hread).2.valid_of_mem hg
  obtain ⟨_, -, -, hproper⟩ := ho.proper_of_mem hi
  exact hproper.arg_nonneg hop

/-- A function with an argument out of range reads the largest index, and later another. -/
theorem top_of_lower_error {name : String} {e : LowerError} (h : p.lower = .error (name, e))
    (he : Lower.OutOfRange e) :
    ∃ g ∈ p.functions, g.name = name ∧ ∃ before i after, g.instrs = before ++ i :: after ∧
      i.ReadsTop ∧ ∃ j ∈ after, j.op = .arg ∧ ¬ j.ReadsTop := by
  obtain ⟨-, hwell⟩ := Text.wellRead_of_read hread
  obtain ⟨fs, hfs, hrun⟩ := lower_eq_error he.ne_crash h
  obtain ⟨g, hg, hname, x, b, hx, i, hi, hno⟩ :=
    Lower.lowerAll_outOfRange (Lower.declares_declared hfs hwell.nodup_names) hrun he
  have hin : i ∈ g.instrs := by
    obtain ⟨o, -, rfl⟩ := hwell.valid_of_mem hg
    exact Graph.mem_instrs.mpr ⟨x, Outline.mem_order_of_block? hx, b, hx, hi⟩
  obtain ⟨k, hk⟩ := List.mem_iff_getElem?.mp hg
  obtain ⟨f, -, hdeclare⟩ := getElem?_of_forall₂ hfs hk
  exact ⟨g, hg, hname, (natural_of_read hread g hg).top_of_outOfRange hdeclare hin hno⟩

end Read

/-- The number of parameters of a function that is read is zero when no argument is read, and
one more than the largest index otherwise, so that all arguments are in range, as long as that
index is not the largest number. The last argument with that index makes the count run over.
When no argument comes after it, the program is not lowered. When one does, only those after it
count, and it is out of range. No other function is refused for an argument out of range, and
none that is checked is lowered with that index. -/
theorem parameters_cover_the_arguments_unless_the_count_runs_over {path : String}
    {text : List UInt8} {p : Program} (hread : Text.read path text = .ok p) :
    (∀ g ∈ p.functions,
      ((∀ i ∈ g.instrs, i.op ≠ .arg) → g.arity = 0) ∧
      ((∀ i ∈ g.instrs, ¬ i.ReadsTop) →
        0 ≤ g.arity.toInt ∧ (∀ i ∈ g.instrs, Lower.InRange g.arity.toInt i) ∧
        ∀ i ∈ g.instrs, i.op = .arg → (∀ j ∈ g.instrs, j.op = .arg → j.imm ≤ i.imm) →
          g.arity.toInt = i.imm.toInt + 1) ∧
      ∀ before i after, g.instrs = before ++ i :: after → i.ReadsTop →
        (∀ j ∈ after, ¬ j.ReadsTop) →
        ((∀ j ∈ after, j.op ≠ .arg) →
          g.arity = Int64.minValue ∧ p.lower = .error ("", .crash)) ∧
        ∀ j ∈ after, j.op = .arg → (∀ l ∈ after, l.op = .arg → l.imm ≤ j.imm) →
          0 < g.arity.toInt ∧ g.arity.toInt = j.imm.toInt + 1 ∧
            ¬ Lower.InRange g.arity.toInt i) ∧
    (∀ name block id op n,
      p.lower = .error (name, .instr block id op (.argumentOutOfRange n)) →
      ∃ g ∈ p.functions, g.name = name ∧ ∃ before i after, g.instrs = before ++ i :: after ∧
        i.ReadsTop ∧ ∃ j ∈ after, j.op = .arg ∧ ¬ j.ReadsTop) ∧
    ((∀ g ∈ p.functions, g.fault? = none) → (∃ m, p.lower = .ok m) →
      ∀ g ∈ p.functions, ∀ i ∈ g.instrs, ¬ i.ReadsTop) := by
  refine ⟨fun g hg => ⟨foldl_count_bare, fun hno => ?_, fun before i after hsplit hi hlast => ?_⟩,
    fun name block id op n hlower => ?_, fun hcheck hlower g hg i hi htop => ?_⟩
  · have hlow := natural_of_read hread g hg
    obtain ⟨n, hn, -⟩ := hlow.arity hno
    exact ⟨by omega, hlow.inRange hno, fun i hi hop hmax => hlow.arity_succ hno hi hop hmax⟩
  · constructor
    · intro hbare
      have harity := Graph.arity_run_over hsplit hi hbare
      exact ⟨harity, lower_run_over hg (Graph.declare?_run_over harity)⟩
    · intro j hj hop hmax
      obtain ⟨hpos, heq⟩ := (natural_of_read hread g hg).arity_anew hsplit hi hlast hj hop hmax
      exact ⟨hpos, heq, hi.not_inRange g.arity⟩
  · exact top_of_lower_error hread hlower ⟨block, id, op, n, rfl⟩
  · obtain ⟨hreg, hnames⟩ :=
      regular_of_read hread fun g hg => Graph.fault?_eq_none.mp (hcheck g hg)
    obtain ⟨-, hrange, -⟩ := (lower_isOk hreg hnames).mp hlower
    exact htop.not_inRange g.arity ((hrange g hg).2 i hi)

/-- A program whose first function takes what it reads, and whose second reads the largest index
before two others. -/
def overrun : Program where
  path := "overrun"
  functions := [
    Outline.graph {
      name := "pick"
      blocks := [("in", [.arg 2, .arg 0, .binary .sub 0 1, .ret [2]])]
      entry := some 0 },
    Outline.graph {
      name := "far"
      blocks := [
        ("in", [.arg 7, .arg Int64.maxValue, .br 1]),
        ("out", [.arg 1, .arg 4, .ret [1]])]
      entry := some 0 }]

def overrunText : List UInt8 :=
  Text.bytesOf ("func pick \x7b\nin:\n a = arg 2\n b = arg 0\n c = sub a b\n ret c\n\x7d\n" ++
    "func far \x7b\nin:\n a = arg 7\n b = arg 9223372036854775807\n br out\nout:\n" ++
    " c = arg 1\n d = arg 4\n ret b\n\x7d")

theorem parameters_of_overrun :
    Text.read "overrun" overrunText = .ok overrun ∧
      (∃ g ∈ overrun.functions, g.name = "pick" ∧ g.arity.toInt = 3 ∧
        ∀ i ∈ g.instrs, Lower.InRange g.arity.toInt i) ∧
      (∃ g ∈ overrun.functions, g.name = "far" ∧ g.arity.toInt = 5 ∧
        ∃ i ∈ g.instrs, ¬ Lower.InRange g.arity.toInt i) ∧
      ¬ ∃ m, overrun.lower = .ok m := by
  have hread : Text.read "overrun" overrunText = .ok overrun := by decide +kernel
  have hcheck : ∀ g ∈ overrun.functions, g.fault? = none := by decide +kernel
  obtain ⟨hall, -, hlowered⟩ := parameters_cover_the_arguments_unless_the_count_runs_over hread
  refine ⟨hread, ⟨_, List.mem_cons_self, rfl, ?_⟩,
    ⟨_, List.mem_cons_of_mem _ List.mem_cons_self, rfl, ?_⟩, fun hm => ?_⟩
  · obtain ⟨-, hcovered, -⟩ := hall _ List.mem_cons_self
    obtain ⟨-, hrange, hcount⟩ := hcovered (by decide +kernel)
    exact ⟨hcount _ List.mem_cons_self rfl (by decide +kernel), hrange⟩
  · obtain ⟨-, -, hover⟩ := hall _ (List.mem_cons_of_mem _ List.mem_cons_self)
    obtain ⟨-, hanew⟩ := hover [_] _ [_, _, _, _] rfl ⟨rfl, rfl⟩ (by decide +kernel)
    obtain ⟨-, hcount, hout⟩ := hanew _
      (List.mem_cons_of_mem _ (List.mem_cons_of_mem _ List.mem_cons_self)) rfl (by decide +kernel)
    exact ⟨hcount, _, List.mem_cons_of_mem _ List.mem_cons_self, hout⟩
  · exact hlowered hcheck hm _ (List.mem_cons_of_mem _ List.mem_cons_self) _
      (List.mem_cons_of_mem _ List.mem_cons_self) ⟨rfl, rfl⟩

/-- A function that reads the largest index, and then the first. -/
def wrap : Graph :=
  Outline.graph {
    name := "f"
    blocks := [("entry", [.arg Int64.maxValue, .arg 0, .ret [1]])]
    entry := some 0 }

def wrapText : List UInt8 :=
  Text.bytesOf "func f \x7b\nentry:\n a = arg 9223372036854775807\n b = arg 0\n ret b\n\x7d"

/-- The parameters need not cover an argument that is read. -/
theorem parameters_need_not_cover_an_argument :
    Text.read "wrap" wrapText = .ok { path := "wrap", functions := [wrap] } ∧
      wrap.fault? = none ∧ wrap.arity = 1 ∧ (∃ i ∈ wrap.instrs, i.ReadsTop) ∧
      Program.lower { path := "wrap", functions := [wrap] } =
        .error ("f", .instr "entry" 0 .arg (.argumentOutOfRange Int64.maxValue)) :=
  ⟨by decide +kernel, by decide +kernel, by decide +kernel, by decide +kernel, rfl⟩

end Program

end FlowGraph

import Mathlib.Order.Bounds.Basic
import FlowGraph.Proofs.Lowerable
import FlowGraph.Proofs.Trimming

/-!
Whether a text still compiles when it is simplified first. Taking out blocks
keeps values in scope, because the order of lowering stays the same for the
blocks that are left. It does not keep the number of parameters: a function
takes as many as it reads, and what only a lost block reads is not counted any
more. So a call that fitted before may not fit after.
-/

namespace FlowGraph

/-! ## Values in scope -/

namespace Lower

@[simp] theorem gives_retarget (f : BlockId → BlockId) (i : Instr) :
    (i.retarget f).gives = i.gives := rfl

theorem Scoped.congr {known known' : List ValueId} {is : List Instr}
    (h : ∀ v, v ∈ known ↔ v ∈ known') : Scoped known is ↔ Scoped known' is := by
  induction is generalizing known known' with
  | nil => rfl
  | cons i is ih =>
    have hnext : Scoped (i.gives ++ known) is ↔ Scoped (i.gives ++ known') is := by
      apply ih
      intro v
      simp [h]
    simp only [Scoped, h, hnext]

theorem scoped_append {known : List ValueId} {is js : List Instr} :
    Scoped known (is ++ js) ↔ Scoped known is ∧ Scoped (is.flatMap (·.gives) ++ known) js := by
  induction is generalizing known with
  | nil => simp [Scoped]
  | cons i is ih =>
    simp only [List.cons_append, Scoped, ih, and_assoc]
    have hsame : Scoped (is.flatMap (·.gives) ++ (i.gives ++ known)) js ↔
        Scoped ((i :: is).flatMap (·.gives) ++ known) js := by
      apply Scoped.congr
      intro v
      simp only [List.flatMap_cons, List.mem_append]
      grind
    rw [hsame]

theorem scoped_retarget {known : List ValueId} {is : List Instr} (f : BlockId → BlockId) :
    Scoped known (is.map (Instr.retarget f)) ↔ Scoped known is := by
  induction is generalizing known with
  | nil => rfl
  | cons i is ih => simp only [List.map_cons, Scoped, Instr.retarget_values, gives_retarget, ih]

/-- Instructions in a row without the jumps among them. -/
def withoutJumps (is : List Instr) : List Instr := is.filter (fun i => i.op ≠ .br)

theorem mem_withoutJumps {is : List Instr} {i : Instr} :
    i ∈ withoutJumps is ↔ i ∈ is ∧ i.op ≠ .br := by
  simp [withoutJumps]

/-- A jump names no value and gives none, so it does not matter to what is in scope. -/
theorem scoped_withoutJumps {known : List ValueId} {is : List Instr} (hfits : ∀ i ∈ is, i.Fits) :
    Scoped known (withoutJumps is) ↔ Scoped known is := by
  induction is generalizing known with
  | nil => rfl
  | cons i is ih =>
    obtain ⟨hi, hfits⟩ := List.forall_mem_cons.mp hfits
    unfold withoutJumps at ih ⊢
    by_cases hop : i.op = .br
    · obtain ⟨hvalues, hgives⟩ := hi.silent hop
      rw [List.filter_cons_of_neg (by simpa using hop), ih hfits]
      simp [Scoped, hvalues, hgives]
    · rw [List.filter_cons_of_pos (by simpa using hop), Scoped, Scoped, ih hfits]

end Lower

namespace Graph

open Lower (Scoped scoped_append scoped_retarget withoutJumps scoped_withoutJumps InScope)

variable {g : Graph}

def codeAt (g : Graph) (ids : List BlockId) : List Instr :=
  (ids.filterMap g.block?).flatMap (·.code)

theorem codeAt_append (g : Graph) (ids ids' : List BlockId) :
    g.codeAt (ids ++ ids') = g.codeAt ids ++ g.codeAt ids' := by
  simp [codeAt]

theorem codeAt_cons {b : BlockId} {block : Block} (hb : g.block? b = some block)
    (ids : List BlockId) : g.codeAt (b :: ids) = block.code ++ g.codeAt ids := by
  simp [codeAt, hb]

theorem WellFormed.fits_codeAt (hg : g.WellFormed) {ids : List BlockId}
    (hids : ∀ b ∈ ids, b ∈ g.order) : ∀ i ∈ g.codeAt ids, i.Fits := by
  intro i hi
  obtain ⟨block, hblock, hi⟩ := List.mem_flatMap.mp hi
  obtain ⟨b, hb, hblock⟩ := List.mem_filterMap.mp hblock
  exact (hg.block_of_mem (hids b hb) hblock).fits i hi

/-- Values are in scope when they are in a row of blocks that a search from the entry gives,
with the others after it. -/
theorem WellFormed.inScope_iff (hg : g.WellFormed) {e : BlockId} (he : g.entry = some e)
    {l : List BlockId} (hl : Visits g.successors [] [e] l) :
    InScope g ↔ Scoped [] (g.codeAt (l ++ g.order.filter (· ∉ l))) := by
  obtain ⟨e', hmem, he'⟩ := hg.entry
  rw [he] at he'
  cases he'
  obtain ⟨l', hl', horder⟩ := hg.lowerOrder?_eq hmem
  obtain rfl := hl.unique hl'
  constructor
  · intro h
    exact h e _ he horder
  · intro h e' bs he' horder'
    rw [he] at he'
    cases he'
    rw [horder] at horder'
    obtain rfl : _ = bs :=
      List.map_injective_iff.mpr (Option.some_injective _) (Option.some.inj horder')
    exact h

section Bypass

variable {gone : List BlockId} {f : BlockId → BlockId}

/-- The search goes past the blocks that are taken out. -/
theorem Bypassing.shortcut (h : g.Bypassing gone f) (hg : g.WellFormed) :
    ∃ far, Visits.Shortcut (· ∈ g.order) g.successors (g.bypassed gone f).successors (· ∈ gone) f
      far := by
  classical
  have hleads : ∀ b, ∃ n, g.hop^[n] b = f b := fun b =>
    leads_iff.mp ((h.follows b).mono fun _ _ => trivial)
  refine ⟨fun b => Nat.find (hleads b), fun a ha b hb => hg.successors_inside ha hb, h.keeps,
    fun a _ => h.lands a, fun a ha hout => hg.successors_bypassed ha hout, ?_⟩
  intro a ha hgone
  obtain ⟨t, ht, hft⟩ := h.gone_eq hgone
  refine ⟨t, hg.successors_of_passTarget? ha ht, hft.symm, ?_⟩
  have hspec := Nat.find_spec (hleads a)
  cases hn : Nat.find (hleads a) with
  | zero =>
    -- a block that is taken out is not where it ends up
    rw [hn] at hspec
    have hsame : a = f a := hspec
    exact absurd (hsame ▸ hgone) (h.lands a)
  | succ n =>
    rw [hn, Function.iterate_succ_apply] at hspec
    have hhop : g.hop a = t := by simp [hop, ht]
    rw [hhop, hft] at hspec
    exact Nat.lt_succ_of_le (Nat.find_le hspec)

theorem Bypassing.jumps (h : g.Bypassing gone f) {b : BlockId} (hb : b ∈ gone) :
    ∃ block i, g.block? b = some block ∧ block.code = [i] ∧ i.op = .br := by
  obtain ⟨t, ht, -⟩ := h.gone_eq hb
  obtain ⟨block, i, hblock, hi, -⟩ := passTarget?_eq_some.mp ht
  exact ⟨block, i, hblock, Block.code_of_soleBranch? hi⟩

/-- The blocks that are left have all that was there but for jumps, in the same order. -/
theorem Bypassing.withoutJumps_codeAt (h : g.Bypassing gone f) (hg : g.WellFormed)
    {ids : List BlockId} (hids : ∀ b ∈ ids, b ∈ g.order) :
    withoutJumps ((g.bypassed gone f).codeAt (ids.filter (· ∉ gone))) =
      (withoutJumps (g.codeAt ids)).map (Instr.retarget f) := by
  unfold withoutJumps
  induction ids with
  | nil => rfl
  | cons b ids ih =>
    obtain ⟨hb, hids⟩ := List.forall_mem_cons.mp hids
    by_cases hgone : b ∈ gone
    · obtain ⟨block, i, hblock, hcode, hop⟩ := h.jumps hgone
      rw [List.filter_cons_of_neg (by simpa using hgone), ih hids, codeAt_cons hblock, hcode]
      simp [hop]
    · obtain ⟨block, hblock, -⟩ := hg.block b hb
      have hblock' : (g.bypassed gone f).block? b = some (block.retarget f) := by
        rw [block?_bypassed f hb hgone, hblock]
        rfl
      have hcode : (block.retarget f).code = block.code.map (Instr.retarget f) := rfl
      rw [List.filter_cons_of_pos (by simpa using hgone), codeAt_cons hblock, codeAt_cons hblock',
        hcode, List.filter_append, List.filter_append, ih hids, List.map_append, List.filter_map]
      rfl

theorem Bypassing.scoped_iff (h : g.Bypassing gone f) (hg : g.WellFormed) {ids : List BlockId}
    (hids : ∀ b ∈ ids, b ∈ g.order) (known : List ValueId) :
    Scoped known ((g.bypassed gone f).codeAt (ids.filter (· ∉ gone))) ↔
      Scoped known (g.codeAt ids) := by
  have hleft : ∀ b ∈ ids.filter (· ∉ gone), b ∈ (g.bypassed gone f).order := by
    intro b hb
    obtain ⟨hb, hgone⟩ := List.mem_filter.mp hb
    exact mem_bypassed_order.mpr ⟨hids b hb, by simpa using hgone⟩
  rw [← scoped_withoutJumps ((h.wellFormed hg).fits_codeAt hleft), h.withoutJumps_codeAt hg hids,
    scoped_retarget, scoped_withoutJumps (hg.fits_codeAt hids)]

/-- A search over what is left goes in the same order as before. -/
theorem Bypassing.visits (h : g.Bypassing gone f) (hg : g.WellFormed) {e : BlockId}
    (he : e ∈ g.order) {l : List BlockId} (hl : Visits g.successors [] [e] l) :
    Visits (g.bypassed gone f).successors [] [f e] (l.filter (· ∉ gone)) := by
  obtain ⟨far, hcut⟩ := h.shortcut hg
  exact (hl.shortcut hcut (by simpa using he) (fun _ _ => .rfl) (by simp [Visits.Passing])).1

/-- What is left is lowered in the same order as before. -/
theorem order_bypassed (g : Graph) (gone : List BlockId) (f : BlockId → BlockId)
    (l : List BlockId) :
    l.filter (· ∉ gone) ++ (g.bypassed gone f).order.filter (· ∉ l.filter (· ∉ gone)) =
      (l ++ g.order.filter (· ∉ l)).filter (· ∉ gone) := by
  have hrest : (g.bypassed gone f).order = g.order.filter (· ∉ gone) := rfl
  rw [List.filter_append, hrest, List.filter_filter, List.filter_filter]
  congr 1
  apply List.filter_congr
  intro x _
  by_cases hx : x ∈ gone <;> simp [hx]

theorem entry_bypassed {e : BlockId} (he : g.entry = some e) :
    (g.bypassed gone f).entry = some (f e) := by
  show g.entry.map f = _
  rw [he]
  rfl

/-- Leading branches past blocks does not change whether values are in scope. -/
theorem Bypassing.inScope_iff (h : g.Bypassing gone f) (hg : g.WellFormed) :
    InScope (g.bypassed gone f) ↔ InScope g := by
  obtain ⟨e, he, hge⟩ := hg.entry
  obtain ⟨l, hl, -⟩ := hg.lowerOrder?_eq he
  rw [(h.wellFormed hg).inScope_iff (entry_bypassed hge) (h.visits hg he hl), order_bypassed,
    h.scoped_iff hg fun b hb => (hg.perm_visits he hl).mem_iff.mp hb, hg.inScope_iff hge hl]

end Bypass

/-- Taking out what no path comes to keeps values in scope. -/
theorem Dead.inScope {dead : List BlockId} (h : g.Dead dead) (hg : g.WellFormed) (hs : InScope g) :
    InScope (g.without dead) := by
  obtain ⟨e, he, hge⟩ := hg.entry
  obtain ⟨l, hl, -⟩ := hg.lowerOrder?_eq he
  have hreach : ∀ b, b ∈ l ↔ g.Reaches b := fun b => hg.mem_visits hge hl
  have hl' : Visits (g.without dead).successors [] [e] l :=
    hl.congr fun b hb => h.successors ((hreach b).mp hb)
  have hrest : (g.without dead).order.filter (· ∉ l) = [] := by
    rw [List.filter_eq_nil_iff]
    intro b hb
    simpa [hreach] using (h.mem_order hg).mp hb
  have hcode : (g.without dead).codeAt l = g.codeAt l := by
    unfold codeAt
    rw [List.filterMap_congr fun b hb => h.block? ((hreach b).mp hb)]
  rw [(h.wellFormed hg).inScope_iff hge hl', hrest, List.append_nil, hcode]
  rw [hg.inScope_iff hge hl, codeAt_append, scoped_append] at hs
  exact hs.1

end Graph

/-- A run of registered passes keeps values in scope. -/
theorem Pipeline.keeps_inScope {p : Pipeline Graph} (hp : ∀ q ∈ p.passes, q ∈ registeredPasses) :
    p.Keeps fun g => g.WellFormed ∧ Lower.InScope g := by
  apply keeps_registered hp
  · exact fun _ h => h.1
  · exact fun _ _ _ h hl => ⟨hl.bypassing.wellFormed h.1, (hl.bypassing.inScope_iff h.1).mpr h.2⟩
  · exact fun _ _ h hd => ⟨hd.wellFormed h.1, hd.inScope h.1 h.2⟩

/-! ## Parameters -/

/-- The number of arguments that instructions read: the least that is above every index. -/
def Takes (is : Instr → Prop) (n : Nat) : Prop :=
  IsLeast {n : Nat | ∀ i, is i → i.op = .arg → i.imm.toInt < n} n

theorem Takes.unique {is : Instr → Prop} {n m : Nat} (h : Takes is n) (h' : Takes is m) : n = m :=
  IsLeast.unique h h'

theorem toInt_succ {x : Int64} {top : Nat} (htop : top < 2 ^ 63) (hlow : 0 ≤ x.toInt)
    (hhigh : x.toInt < top) : (x + 1).toInt = (x.toInt.toNat + 1 : Nat) := by
  have hone : Int64.toInt 1 = 1 := rfl
  rw [Int64.toInt_add, hone, Int.bmod_eq_of_le]
  · omega
  · omega
  · omega

/-- The count of parameters is the number of arguments that are read, where it does not run
over. -/
theorem foldl_arity {is : List Instr} {start : Int64} {a top : Nat} (htop : top < 2 ^ 63)
    (ha : start.toInt = a) (hle : a ≤ top)
    (hargs : ∀ i ∈ is, i.op = .arg → 0 ≤ i.imm.toInt ∧ i.imm.toInt < top) :
    ∃ n : Nat, n ≤ top ∧ (is.foldl Instr.count start).toInt = n ∧
      IsLeast {n : Nat | a ≤ n ∧ ∀ i ∈ is, i.op = .arg → i.imm.toInt < n} n := by
  induction is generalizing start a with
  | nil => exact ⟨a, hle, ha, by simp, fun m hm => hm.1⟩
  | cons i is ih =>
    obtain ⟨hi, his⟩ := List.forall_mem_cons.mp hargs
    have hcompare : start ≤ i.imm ↔ (a : Int) ≤ i.imm.toInt := by
      rw [Int64.le_iff_toInt_le, ha]
    rw [List.foldl_cons, Instr.count]
    by_cases hread : i.op = .arg ∧ start ≤ i.imm
    · obtain ⟨hlow, hhigh⟩ := hi hread.1
      have hlarge := hcompare.mp hread.2
      rw [if_pos hread]
      obtain ⟨n, hn, hfold, ⟨habove, hall⟩, hleast⟩ :=
        ih (toInt_succ htop hlow hhigh) (by omega) his
      refine ⟨n, hn, hfold, ⟨by omega, List.forall_mem_cons.mpr ⟨fun _ => by omega, hall⟩⟩, ?_⟩
      rintro m ⟨hm, hm'⟩
      obtain ⟨hmi, hmis⟩ := List.forall_mem_cons.mp hm'
      have := hmi hread.1
      exact hleast ⟨by omega, hmis⟩
    · rw [if_neg hread]
      obtain ⟨n, hn, hfold, ⟨habove, hall⟩, hleast⟩ := ih ha hle his
      refine ⟨n, hn, hfold, ⟨habove, List.forall_mem_cons.mpr ⟨?_, hall⟩⟩, ?_⟩
      · intro hop
        have : ¬ (a : Int) ≤ i.imm.toInt := fun h => hread ⟨hop, hcompare.mpr h⟩
        omega
      · rintro m ⟨hm, hm'⟩
        exact hleast ⟨hm, (List.forall_mem_cons.mp hm').2⟩

/-- All arguments are in range of what a function can take. -/
def Graph.Bounded (g : Graph) : Prop :=
  ∀ i ∈ g.instrs, i.op = .arg → 0 ≤ i.imm.toInt ∧ i.imm.toInt < Lower.maxParams

theorem Graph.Bounded.arity {g : Graph} (h : g.Bounded) :
    ∃ n : Nat, n ≤ Lower.maxParams ∧ g.arity.toInt = n ∧ Takes (· ∈ g.instrs) n := by
  have hzero : (0 : Int64).toInt = (0 : Nat) := rfl
  have hmax : Lower.maxParams < 2 ^ 63 := by decide
  obtain ⟨n, hn, harity, hleast⟩ := foldl_arity hmax hzero (Nat.zero_le _) h
  refine ⟨n, hn, harity, ?_⟩
  simpa [Takes] using hleast

/-- A function can be declared, and reads its arguments in range, when all are bounded. -/
theorem Lower.bounded_iff {g : Graph} :
    ((declare? g).isSome = true ∧ ∀ i ∈ g.instrs, InRange g.arity.toInt i) ↔ g.Bounded := by
  constructor
  · rintro ⟨hdeclare, hrange⟩ i hi hop
    obtain ⟨f, hf⟩ := Option.isSome_iff_exists.mp hdeclare
    have hle : g.arity.toInt ≤ maxParams := by
      unfold declare? at hf
      dsimp only at hf
      split at hf
      · cases hf
      · omega
    have := hrange i hi hop
    omega
  · intro h
    obtain ⟨n, hn, harity, hmem, -⟩ := h.arity
    refine ⟨?_, fun i hi hop => ⟨(h i hi hop).1, harity ▸ hmem i hi hop⟩⟩
    unfold declare?
    dsimp only
    rw [harity, if_neg (by omega)]
    rfl

/-! ## What is left of a program -/

section Pruned

variable {g g' : Graph}

/-- What is left reads the arguments that are read where a path comes to. -/
theorem Graph.Pruned.takes (h : g.Pruned g') (n : Nat) :
    Takes (· ∈ g'.instrs) n ↔ Takes g.Lives n := by
  obtain ⟨f, hleft, hkept⟩ := h.instrs
  have hbounds : ∀ m : Nat, (∀ i ∈ g'.instrs, i.op = .arg → i.imm.toInt < m) ↔
      ∀ i, g.Lives i → i.op = .arg → i.imm.toInt < m := by
    intro m
    constructor
    · intro hm i hi hop
      exact hm (i.retarget f) (hkept i hi (by simp [hop])) hop
    · intro hm i' hi' hop
      obtain ⟨i, hi, rfl⟩ := hleft i' hi'
      exact hm i hi hop
  unfold Takes
  simp only [hbounds]

theorem Graph.Pruned.bounded (h : g.Pruned g') (hg : g.WellFormed) (hb : g.Bounded) :
    g'.Bounded := by
  obtain ⟨f, hleft, -⟩ := h.instrs
  intro i' hi' hop
  obtain ⟨i, hi, rfl⟩ := hleft i' hi'
  exact hb i (hg.mem_of_lives hi) hop

theorem Lower.Able.retarget {i : Instr} (h : Able i) (f : BlockId → BlockId) :
    Able (i.retarget f) where
  fits := Instr.Fits.retarget h.fits f
  paired := by
    have := h.paired
    unfold Paired at this ⊢
    rwa [Instr.retarget_values]
  cond := h.cond

theorem Lower.Regular.trimmed (hg : Regular g) (h : g.Trimmed g') : Regular g' where
  wellFormed := h.wellFormed
  able := by
    obtain ⟨f, hleft⟩ := h.instr_of_mem hg.wellFormed
    intro i' hi'
    obtain ⟨i, hi, rfl⟩ := hleft i' hi'
    exact (hg.able i hi).retarget f

end Pruned

/-- Callees can be given what they take one by one when their names differ. -/
theorem exists_takes {gs : List Graph} (hnames : (gs.map (·.name)).Nodup) (size : Graph → Nat)
    (other : String → Nat) :
    ∃ takes : String → Nat, (∀ g ∈ gs, takes g.name = size g) ∧
      ∀ name, (∀ g ∈ gs, g.name ≠ name) → takes name = other name := by
  induction gs with
  | nil => exact ⟨other, by simp, fun _ _ => rfl⟩
  | cons g gs ih =>
    obtain ⟨hnew, hnames⟩ := List.nodup_cons.mp hnames
    obtain ⟨takes, hown, hother⟩ := ih hnames
    refine ⟨fun name => if name = g.name then size g else takes name, ?_, ?_⟩
    · refine List.forall_mem_cons.mpr ⟨by simp, fun g' hg' => ?_⟩
      have hne : g'.name ≠ g.name := fun heq => hnew (List.mem_map.mpr ⟨g', hg', heq⟩)
      simp [hne, hown g' hg']
    · intro name hno
      obtain ⟨hne, hno⟩ := List.forall_mem_cons.mp hno
      simp [Ne.symm hne, hother name hno]

namespace Program

/-- The calls where a path comes to pass what their callees read where a path comes to. -/
def CallsFit (p : Program) : Prop :=
  ∀ g ∈ p.functions, ∀ i, g.Lives i → i.op = .call → ∀ callee ∈ p.functions, callee.name = i.sym →
    Takes callee.Lives i.values.length

variable {p : Program} {F : Graph → Graph} (hreg : ∀ g ∈ p.functions, Lower.Regular g)
  (hnames : (p.functions.map (·.name)).Nodup)
  (hF : ∀ g ∈ p.functions, g.Pruned (F g))

/-- The program with a function put in the place of each. -/
def mapFunctions (p : Program) (F : Graph → Graph) : Program :=
  { p with functions := p.functions.map F }

theorem map_name_mapFunctions (hname : ∀ g ∈ p.functions, (F g).name = g.name) :
    (p.mapFunctions F).functions.map (·.name) = p.functions.map (·.name) := by
  show (p.functions.map F).map _ = _
  rw [List.map_map]
  exact List.map_congr_left hname

include hnames hF in
theorem nodup_mapFunctions : ((p.mapFunctions F).functions.map (·.name)).Nodup := by
  rw [map_name_mapFunctions fun g hg => (hF g hg).name]
  exact hnames

include hreg hF in
theorem regular_mapFunctions : ∀ g ∈ (p.mapFunctions F).functions, Lower.Regular g := by
  intro g' hg'
  obtain ⟨g, hg, rfl⟩ := List.mem_map.mp hg'
  exact (hreg g hg).trimmed (hF g hg).toTrimmed

include hreg hnames in
theorem bounded_of_lower {m : Llvm.Module} (h : p.lower = .ok m) :
    ∀ g ∈ p.functions, g.Bounded := by
  obtain ⟨hdeclare, hall, -⟩ := (lower_isOk hreg hnames).mp ⟨m, h⟩
  exact fun g hg => Lower.bounded_iff.mp ⟨hdeclare g hg, (hall g hg).2⟩

include hreg hnames hF in
/-- Of a program that is lowered, what is left is lowered too if the calls still fit. -/
theorem lower_mapFunctions_isOk {m : Llvm.Module} (h : p.lower = .ok m)
    (hscope : ∀ g ∈ p.functions, Lower.InScope (F g)) :
    (∃ m', (p.mapFunctions F).lower = .ok m') ↔ p.CallsFit := by
  have hbounded := bounded_of_lower hreg hnames h
  have harity : ∀ g ∈ p.functions, ∃ n : Nat, (F g).arity.toInt = n ∧ Takes g.Lives n := by
    intro g hg
    obtain ⟨n, -, hn, htakes⟩ := ((hF g hg).bounded (hreg g hg).wellFormed (hbounded g hg)).arity
    exact ⟨n, hn, ((hF g hg).takes n).mp htakes⟩
  rw [lower_isOk (regular_mapFunctions hreg hF) (nodup_mapFunctions hnames hF)]
  constructor
  · rintro ⟨-, -, takes, htakes, hpasses⟩ g hg i hi hop callee hcallee hname
    obtain ⟨f, -, hkept⟩ := (hF g hg).instrs
    have hpass := hpasses (F g) (List.mem_map_of_mem hg) _ (hkept i hi (by simp [hop])) hop
    obtain ⟨n, hn, hcount⟩ := harity callee hcallee
    have hown := htakes (F callee) (List.mem_map_of_mem hcallee)
    rw [(hF callee hcallee).name, hname, hn] at hown
    rw [Instr.retarget_sym, Instr.retarget_values] at hpass
    obtain rfl : n = i.values.length := by omega
    exact hcount
  · intro hfit
    obtain ⟨-, -, takes₀, -, hpasses₀⟩ := (lower_isOk hreg hnames).mp ⟨m, h⟩
    obtain ⟨takes, hown, hother⟩ := exists_takes hnames (fun g => (F g).arity.toInt.toNat) takes₀
    refine ⟨?_, ?_, takes, ?_, ?_⟩
    · intro g' hg'
      obtain ⟨g, hg, rfl⟩ := List.mem_map.mp hg'
      exact (Lower.bounded_iff.mpr
        ((hF g hg).bounded (hreg g hg).wellFormed (hbounded g hg))).1
    · intro g' hg'
      obtain ⟨g, hg, rfl⟩ := List.mem_map.mp hg'
      exact ⟨hscope g hg, (Lower.bounded_iff.mpr
        ((hF g hg).bounded (hreg g hg).wellFormed (hbounded g hg))).2⟩
    · intro g' hg'
      obtain ⟨g, hg, rfl⟩ := List.mem_map.mp hg'
      obtain ⟨n, hn, -⟩ := harity g hg
      rw [(hF g hg).name, hown g hg, hn]
      rfl
    · intro g' hg' i' hi' hop
      obtain ⟨g, hg, rfl⟩ := List.mem_map.mp hg'
      obtain ⟨f, hleft, -⟩ := (hF g hg).instrs
      obtain ⟨i, hi, rfl⟩ := hleft i' hi'
      rw [Instr.retarget_sym, Instr.retarget_values]
      by_cases hinside : ∃ callee ∈ p.functions, callee.name = i.sym
      · obtain ⟨callee, hcallee, hname⟩ := hinside
        obtain ⟨n, hn, hcount⟩ := harity callee hcallee
        rw [← hname, hown callee hcallee, hn]
        exact hcount.unique (hfit g hg i hi hop callee hcallee hname)
      · rw [hother i.sym fun callee hcallee hname => hinside ⟨callee, hcallee, hname⟩]
        exact hpasses₀ g hg i ((hreg g hg).wellFormed.mem_of_lives hi) hop

include hreg hnames in
/-- Calls that fitted still fit when each function reads its last argument where a path comes
to. -/
theorem callsFit_of_lower {m : Llvm.Module} (h : p.lower = .ok m)
    (hlast : ∀ g ∈ p.functions, ∀ n, Takes (· ∈ g.instrs) n → Takes g.Lives n) : p.CallsFit := by
  obtain ⟨-, -, takes, htakes, hpasses⟩ := (lower_isOk hreg hnames).mp ⟨m, h⟩
  intro g hg i hi hop callee hcallee hname
  obtain ⟨n, -, hn, hcount⟩ := (bounded_of_lower hreg hnames h callee hcallee).arity
  have hpass := hpasses g hg i ((hreg g hg).wellFormed.mem_of_lives hi) hop
  have hown := htakes callee hcallee
  rw [hname, hn] at hown
  obtain rfl : n = i.values.length := by omega
  exact hlast callee hcallee _ hcount

include hreg hnames hF in
/-- The heads of what is left. A function takes what it reads where a path comes to, and the
callees from outside are some of those there were. -/
theorem heads_mapFunctions {m m' : Llvm.Module} (h : p.lower = .ok m)
    (h' : (p.mapFunctions F).lower = .ok m') :
    (∀ (k : Nat) g, p.functions[k]? = some g → ∃ f f', m.functions[k]? = some f ∧
      m'.functions[k]? = some f' ∧ f.name = g.name ∧ f'.name = g.name ∧
      Takes (· ∈ g.instrs) f.params ∧ Takes g.Lives f'.params) ∧
    ∀ f' ∈ m'.functions.drop p.functions.length,
      ∃ f ∈ m.functions.drop p.functions.length, f.name = f'.name ∧ f.params = f'.params := by
  have hregular := regular_mapFunctions hreg hF
  have hnodup := nodup_mapFunctions hnames hF
  have hbounded := bounded_of_lower hreg hnames h
  have hbounded' := bounded_of_lower hregular hnodup h'
  obtain ⟨hown, houtside⟩ := lower_heads hreg hnames h
  obtain ⟨hown', houtside'⟩ := lower_heads hregular hnodup h'
  constructor
  · intro k g hk
    have hg := List.mem_of_getElem? hk
    have hk' : (p.mapFunctions F).functions[k]? = some (F g) := by
      show (p.functions.map F)[k]? = _
      rw [List.getElem?_map, hk]
      rfl
    obtain ⟨f, hf, hname, hparams⟩ := hown k g hk
    obtain ⟨f', hf', hname', hparams'⟩ := hown' k (F g) hk'
    obtain ⟨n, -, hn, htakes⟩ := (hbounded g hg).arity
    obtain ⟨n', -, hn', htakes'⟩ := (hbounded' (F g) (List.mem_map_of_mem hg)).arity
    obtain rfl : f.params = n := by omega
    obtain rfl : f'.params = n' := by omega
    exact ⟨f, f', hf, hf', hname, hname'.trans (hF g hg).name, htakes,
      ((hF g hg).takes _).mp htakes'⟩
  · intro f' hf'
    have hlength : (p.mapFunctions F).functions.length = p.functions.length := by
      simp [mapFunctions]
    obtain ⟨hno, g', hg', i', hi', hop, hsym, hlen⟩ :=
      (houtside' f'.name f'.params).mp ⟨f', by rwa [hlength], rfl, rfl⟩
    obtain ⟨g, hg, rfl⟩ := List.mem_map.mp hg'
    obtain ⟨f, hleft, -⟩ := (hF g hg).instrs
    obtain ⟨i, hi, rfl⟩ := hleft i' hi'
    rw [Instr.retarget_values] at hlen
    have hno' : ∀ callee ∈ p.functions, callee.name ≠ f'.name := by
      intro callee hcallee
      rw [← (hF callee hcallee).name]
      exact hno _ (List.mem_map_of_mem hcallee)
    exact (houtside f'.name f'.params).mpr
      ⟨hno', g, hg, i, (hreg g hg).wellFormed.mem_of_lives hi, hop, hsym, hlen⟩

/-- A function that is read can be lowered but for what its instructions name. -/
theorem regular_of_mem {path : String} {text : List UInt8} (hread : Text.read path text = .ok p)
    {g : Graph} (hg : g ∈ p.functions) (hwf : g.WellFormed) : Lower.Regular g := by
  refine ⟨hwf, fun i hi => ?_⟩
  obtain ⟨o, ho, rfl⟩ := (Text.wellRead_of_read hread).2.valid_of_mem hg
  obtain ⟨_, -, -, hproper⟩ := ho.proper_of_mem hi
  exact ⟨hproper.fits, hproper.paired, hproper.cond⟩

theorem regular_of_read {path : String} {text : List UInt8} (hread : Text.read path text = .ok p)
    (hwf : ∀ g ∈ p.functions, g.WellFormed) :
    (∀ g ∈ p.functions, Lower.Regular g) ∧ (p.functions.map (·.name)).Nodup :=
  ⟨fun g hg => regular_of_mem hread hg (hwf g hg), (Text.wellRead_of_read hread).2.nodup_names⟩

end Program

/-! ## With and without passes -/

namespace Settings

theorem compile_eq_ok {s : Settings} {path : String} {text : List UInt8} {out : String} :
    s.compile path text = .ok out ↔
      ∃ p m, s.optimize path text = .ok p ∧ p.lower = .ok m ∧ m.text = .ok out := by
  unfold Settings.compile
  cases s.optimize path text with
  | error e => simp [Except.mapError, bind, Except.bind]
  | ok p =>
    cases hm : p.lower with
    | error e => simp [Except.mapError, bind, Except.bind, hm]
    | ok m =>
      cases ht : m.text with
      | error e => simp [Except.mapError, bind, Except.bind, hm, ht]
      | ok out' => simp [Except.mapError, bind, Except.bind, hm, ht]

theorem compile_iff {s : Settings} {path : String} {text : List UInt8} {p : Program}
    (h : s.optimize path text = .ok p) {out : String} :
    s.compile path text = .ok out ↔ ∃ m, p.lower = .ok m ∧ m.text = .ok out := by
  rw [compile_eq_ok, h]
  simp

/-- With no passes and with checks, the program that is read is lowered as it is. -/
theorem compile_of_nil {s : Settings} (hpasses : s.passes = []) (hverify : s.verify = true)
    {path : String} {text : List UInt8} {out : String} (h : s.compile path text = .ok out) :
    ∃ p m, Text.read path text = .ok p ∧ (∀ g ∈ p.functions, g.WellFormed) ∧ p.lower = .ok m ∧
      m.text = .ok out := by
  obtain ⟨p', m, hopt, hlower, htext⟩ := compile_eq_ok.mp h
  obtain ⟨q, p, hq, hread, hruns, rfl⟩ := optimize_eq_ok.mp hopt
  obtain ⟨-, hqeq⟩ := pipeline_eq_ok.mp hq
  have hnone : q.passes = [] := by
    rw [hqeq, hpasses]
    rfl
  have hchecks : q.verify = true := by rw [hqeq, hverify]
  have hsame : p.functions.map (fun g => (q.run g).state) = p.functions := by
    rw [List.map_congr_left fun g _ => (Pipeline.run_nil hnone).1]
    exact List.map_id _
  rw [hsame] at hlower
  refine ⟨p, m, hread, fun g hg => ?_, hlower, htext⟩
  have hfault := (Pipeline.run_nil hnone).2.mp (hruns g hg)
  unfold Pipeline.faultAt at hfault
  rw [if_pos hchecks] at hfault
  exact Graph.fault?_eq_none.mp hfault

/-- Each function of a text has at most so many blocks. -/
def BlocksWithin (path : String) (text : List UInt8) (n : Int) : Prop :=
  ∀ p, Text.read path text = .ok p → ∀ g ∈ p.functions, (g.order.length : Int) ≤ n

/-- With rounds enough, both passes run over a program that passes the check. -/
theorem optimize_of_default {s : Settings} (hpasses : s.passes = Settings.default.passes)
    (hvalid : s.fault? = none) {path : String} {text : List UInt8} {p : Program}
    (hread : Text.read path text = .ok p) (hwf : ∀ g ∈ p.functions, g.WellFormed)
    (hrounds : BlocksWithin path text s.maxRounds) :
    ∃ q : Pipeline Graph, q.passes = registeredPasses ∧
      s.optimize path text = .ok (p.mapFunctions fun g => (q.run g).state) := by
  obtain ⟨q, hq⟩ : ∃ q, s.pipeline = .ok q := ⟨_, pipeline_eq_ok.mpr ⟨hvalid, rfl⟩⟩
  have hboth := passes_of_default hq hpasses
  have hlimit : q.maxRounds = s.maxRounds := by
    obtain ⟨-, rfl⟩ := pipeline_eq_ok.mp hq
    rfl
  refine ⟨q, hboth, optimize_eq_ok.mpr ⟨q, p, hq, hread, fun g hg => ?_, rfl⟩⟩
  have hle := hrounds p hread g hg
  obtain ⟨_, _, -, -, -, -, hrun, -⟩ :=
    (Pipeline.lowers_registered (p := q) (by simp [hboth])).run (hwf g hg) (by
      unfold Pipeline.roundLimit
      obtain ⟨e, he, -⟩ := (hwf g hg).entry
      have := List.length_pos_of_mem he
      rw [if_neg (by omega), hlimit]
      omega)
  rw [hrun]

/-- A text that compiles without passes compiles with both of them, given rounds enough, when
the calls fit that a path comes to. Each function keeps its name, and takes what it reads where
a path comes to. So when each function reads its last argument there, the text compiles and
all functions take what they took. -/
theorem a_text_compiles_with_passes_when_its_calls_still_fit {s₀ s : Settings} {path : String}
    {text : List UInt8} {out₀ : String} (hnone : s₀.passes = []) (hverify : s₀.verify = true)
    (h₀ : s₀.compile path text = .ok out₀) (hboth : s.passes = Settings.default.passes)
    (hvalid : s.fault? = none) (hrounds : BlocksWithin path text s.maxRounds) :
    ∃ p m₀ p', Text.read path text = .ok p ∧ p.lower = .ok m₀ ∧ m₀.text = .ok out₀ ∧
      s.optimize path text = .ok p' ∧
      ((∃ out, s.compile path text = .ok out) ↔ p.CallsFit) ∧
      (∀ out, s.compile path text = .ok out → ∃ m, p'.lower = .ok m ∧ m.text = .ok out ∧
        (∀ (k : Nat) g, p.functions[k]? = some g → ∃ f₀ f, m₀.functions[k]? = some f₀ ∧
          m.functions[k]? = some f ∧ f₀.name = g.name ∧ f.name = g.name ∧
          Takes (· ∈ g.instrs) f₀.params ∧ Takes g.Lives f.params) ∧
        ∀ f ∈ m.functions.drop p.functions.length,
          ∃ f₀ ∈ m₀.functions.drop p.functions.length, f₀.name = f.name ∧ f₀.params = f.params) ∧
      ((∀ g ∈ p.functions, ∀ n, Takes (· ∈ g.instrs) n → Takes g.Lives n) →
        ∃ out m, s.compile path text = .ok out ∧ p'.lower = .ok m ∧ m.text = .ok out ∧
          ∀ k < p.functions.length, (m.functions[k]?).map (·.params) =
            (m₀.functions[k]?).map (·.params)) := by
  obtain ⟨p, m₀, hread, hwf, hlower₀, htext₀⟩ := compile_of_nil hnone hverify h₀
  obtain ⟨hreg, hnames⟩ := Program.regular_of_read hread hwf
  obtain ⟨q, hq, hoptimize⟩ := optimize_of_default hboth hvalid hread hwf hrounds
  have hpruned : ∀ g ∈ p.functions, g.Pruned (q.run g).state := fun g hg =>
    Pipeline.run_pruned hq (hwf g hg)
  obtain ⟨-, hall, -⟩ := (Program.lower_isOk hreg hnames).mp ⟨m₀, hlower₀⟩
  have hscope : ∀ g ∈ p.functions, Lower.InScope (q.run g).state := fun g hg =>
    ((Pipeline.keeps_inScope (p := q) (by simp [hq])).run ⟨hwf g hg, (hall g hg).1⟩).1.2
  have hcompile : (∃ out, s.compile path text = .ok out) ↔ p.CallsFit := by
    rw [← Program.lower_mapFunctions_isOk hreg hnames hpruned hlower₀ hscope]
    constructor
    · rintro ⟨out, hout⟩
      obtain ⟨m, hm, -⟩ := (compile_iff hoptimize).mp hout
      exact ⟨m, hm⟩
    · rintro ⟨m, hm⟩
      obtain ⟨out, hout⟩ := Program.lower_text (Program.regular_mapFunctions hreg hpruned)
        (Program.nodup_mapFunctions hnames hpruned) hm
      exact ⟨out, (compile_iff hoptimize).mpr ⟨m, hm, hout⟩⟩
  refine ⟨p, m₀, _, hread, hlower₀, htext₀, hoptimize, hcompile, ?_, ?_⟩
  · intro out hout
    obtain ⟨m, hm, htext⟩ := (compile_iff hoptimize).mp hout
    exact ⟨m, hm, htext, Program.heads_mapFunctions hreg hnames hpruned hlower₀ hm⟩
  · intro hlast
    obtain ⟨out, hout⟩ := hcompile.mpr (Program.callsFit_of_lower hreg hnames hlower₀ hlast)
    obtain ⟨m, hm, htext⟩ := (compile_iff hoptimize).mp hout
    refine ⟨out, m, hout, hm, htext, fun k hk => ?_⟩
    have hg := List.getElem?_eq_getElem hk
    obtain ⟨f₀, f, hf₀, hf, -, -, htakes₀, htakes⟩ :=
      (Program.heads_mapFunctions hreg hnames hpruned hlower₀ hm).1 k _ hg
    rw [hf₀, hf, Option.map_some, Option.map_some,
      htakes.unique (hlast _ (List.getElem_mem hk) _ htakes₀)]

/-- No passes, and otherwise as usual. -/
def plain : Settings := { Settings.default with passes := [] }

/-- A program whose dead block reads an argument and calls to the outside. Its call passes two
arguments, and the last of them is read in a block that runs. -/
def lastKept : Program where
  path := "kept"
  functions := [
    Outline.graph {
      name := "second"
      blocks := [
        ("in", [.arg 1, .br 2]),
        ("dead", [.arg 0, .call "out" [2], .br 2]),
        ("leave", [.ret [0]])]
      entry := some 0 },
    Outline.graph {
      name := "main"
      blocks := [("start", [.const 7, .call "second" [0, 0], .ret [1]])]
      entry := some 0 }]

def lastKeptText : List UInt8 :=
  Text.bytesOf ("func second \x7b\nin:\n a = arg 1\n br leave\ndead:\n b = arg 0\n c = call out b\n" ++
    " br leave\nleave:\n ret a\n\x7d\nfunc main \x7b\nstart:\n x = const 7\n r = call second x, x\n" ++
    " ret r\n\x7d")

theorem takes_lives_lastKept : ∀ g ∈ lastKept.functions, ∀ n, Takes (· ∈ g.instrs) n →
    Takes g.Lives n := by
  have hwf : ∀ g ∈ lastKept.functions, g.WellFormed := fun g hg =>
    Graph.fault?_eq_none.mp ((by decide +kernel : ∀ g ∈ lastKept.functions, g.fault? = none) g hg)
  intro g hg n hn
  refine ⟨fun i hi => hn.1 i ((hwf g hg).mem_of_lives hi), fun m hm => ?_⟩
  -- the first block is entered, and reads the last argument if there is one
  have hfirst : ∀ g ∈ lastKept.functions, g.entry = some 0 ∧ ∃ block ∈ g.block? 0,
      ∀ i ∈ g.instrs, i.op = .arg → ∃ j ∈ block.code, j.op = .arg ∧ i.imm.toInt ≤ j.imm.toInt := by
    decide +kernel
  obtain ⟨hentry, block, hblock, hlast⟩ := hfirst g hg
  apply hn.2
  intro i hi hop
  obtain ⟨j, hj, hjop, hle⟩ := hlast i hi hop
  have := hm j ⟨0, block, (hwf g hg).reaches_entry hentry, hblock, hj⟩ hjop
  omega

theorem a_text_compiles_with_passes_when_its_last_argument_is_kept :
    Text.read "kept" lastKeptText = .ok lastKept ∧ plain.passes = [] ∧ plain.verify = true ∧
      ∃ m₀ m : Llvm.Module, ∃ out₀ out, lastKept.lower = .ok m₀ ∧ m₀.text = .ok out₀ ∧
        plain.compile "kept" lastKeptText = .ok out₀ ∧
        Settings.default.compile "kept" lastKeptText = .ok out ∧ m.text = .ok out ∧
        ∀ k < 2, (m.functions[k]?).map (·.params) = (m₀.functions[k]?).map (·.params) := by
  have hread : Text.read "kept" lastKeptText = .ok lastKept := by decide +kernel
  have hrounds : BlocksWithin "kept" lastKeptText Settings.default.maxRounds := by
    intro p hp g hg
    rw [hread] at hp
    cases hp
    exact (by decide +kernel : ∀ g ∈ lastKept.functions, (g.order.length : Int) ≤ 64) g hg
  have hok : (plain.compile "kept" lastKeptText).isOk = true := by decide +kernel
  cases h₀ : plain.compile "kept" lastKeptText with
  | error e =>
    rw [h₀] at hok
    cases hok
  | ok out₀ =>
    obtain ⟨p, m₀, p', hp, hm₀, hout₀, -, -, -, hkept⟩ :=
      a_text_compiles_with_passes_when_its_calls_still_fit rfl rfl h₀ rfl (by decide +kernel) hrounds
    rw [hread] at hp
    cases hp
    obtain ⟨out, m, hout, -, htext, hparams⟩ := hkept takes_lives_lastKept
    exact ⟨hread, rfl, rfl, m₀, m, out₀, out, hm₀, hout₀, rfl, hout, htext, hparams⟩

/-- A program whose call passes two arguments, the last of which is only read in a block that
never runs. -/
def lastLost : Program where
  path := "lost"
  functions := [
    Outline.graph {
      name := "first"
      blocks := [("in", [.arg 0, .ret [0]]), ("dead", [.arg 1, .ret [2]])]
      entry := some 0 },
    Outline.graph {
      name := "main"
      blocks := [("start", [.const 7, .call "first" [0, 0], .ret [1]])]
      entry := some 0 }]

def lastLostText : List UInt8 :=
  Text.bytesOf ("func first \x7b\nin:\n a = arg 0\n ret a\ndead:\n b = arg 1\n ret b\n\x7d\n" ++
    "func main \x7b\nstart:\n x = const 7\n r = call first x, x\n ret r\n\x7d")

/-- A text that compiles without passes need not compile with them. -/
theorem a_call_need_not_fit_after_the_passes :
    plain.passes = [] ∧ plain.verify = true ∧ (plain.compile "lost" lastLostText).isOk = true ∧
      Text.read "lost" lastLostText = .ok lastLost ∧
      (∀ g ∈ lastLost.functions, (g.order.length : Int) ≤ Settings.default.maxRounds) ∧
      Settings.default.compile "lost" lastLostText =
        .error (.lower "main" (.instr "start" 1 .call (.callArity "first" 2 1))) := by
  refine ⟨rfl, rfl, ?_, ?_, ?_, ?_⟩
  · decide +kernel
  · decide +kernel
  · decide +kernel
  · decide +kernel

end Settings

end FlowGraph

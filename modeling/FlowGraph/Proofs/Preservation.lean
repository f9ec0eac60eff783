import FlowGraph.Proofs.Meaning
import FlowGraph.Proofs.Passes

/-!
The passes keep the meaning of a graph. A run of the graph after a pass is a
run of the graph before it with some hops left out: at each branch the run
before may first go through blocks that pass it on. A block that was taken out
otherwise is one that no run comes to.
-/

namespace FlowGraph

/-! ## One instruction passed through a map -/

/-- What is done, with a jump passed through a map. -/
def Deed.retarget (f : BlockId → BlockId) : Deed → Deed
  | jump b => jump (f b)
  | d => d

theorem Deed.retarget_ofTwo (f : BlockId → BlockId) (op : Int64 → Int64 → Int64)
    (xs : List Int64) : (Deed.ofTwo op xs).retarget f = Deed.ofTwo op xs := by
  unfold Deed.ofTwo
  split <;> rfl

theorem Instr.perform_retarget (f : BlockId → BlockId) (args : List Int64) (env : Env)
    (i : Instr) : (i.retarget f).perform args env = (i.perform args env).retarget f := by
  unfold Instr.perform
  rw [Instr.retarget_values]
  cases i.values.mapM env with
  | none => rfl
  | some xs =>
    simp only [Instr.act, Instr.retarget_op, Instr.retarget_imm, Instr.retarget_cond,
      Instr.retarget_sym, Instr.retarget_targets]
    cases i.op with
    | const => rfl
    | arg => cases argument? args i.imm <;> rfl
    | add => exact (Deed.retarget_ofTwo f _ xs).symm
    | sub => exact (Deed.retarget_ofTwo f _ xs).symm
    | mul => exact (Deed.retarget_ofTwo f _ xs).symm
    | cmp =>
      cases Cond.ofName? i.cond with
      | none => rfl
      | some c => exact (Deed.retarget_ofTwo f _ xs).symm
    | call => rfl
    | br => rcases i.targets with _ | ⟨t, _ | ⟨u, ts⟩⟩ <;> rfl
    | brif =>
      rcases xs with _ | ⟨c, _ | ⟨d, xs⟩⟩
      · rfl
      · rcases i.targets with _ | ⟨yes, _ | ⟨no, _ | ⟨t, ts⟩⟩⟩
        · rfl
        · rfl
        · by_cases hc : c ≠ 0 <;> simp [hc, Deed.retarget]
        · rfl
      · rfl
    | ret => rcases xs with _ | ⟨x, _ | ⟨y, xs⟩⟩ <;> rfl
    | unknown c => rfl

theorem Deed.ofTwo_ne_jump (op : Int64 → Int64 → Int64) (xs : List Int64) (t : BlockId) :
    Deed.ofTwo op xs ≠ .jump t := by
  rcases Deed.ofTwo_cases op xs with h | ⟨x, h⟩ <;> simp [h]

/-- A jump goes to a block that the instruction names. -/
theorem Instr.mem_targets_of_jump {args : List Int64} {env : Env} {i : Instr} {t : BlockId}
    (h : i.perform args env = .jump t) : t ∈ i.targets := by
  unfold Instr.perform at h
  split at h
  · cases h
  · unfold Instr.act at h
    split at h
    · cases h
    · split at h <;> cases h
    · exact absurd h (Deed.ofTwo_ne_jump _ _ _)
    · exact absurd h (Deed.ofTwo_ne_jump _ _ _)
    · exact absurd h (Deed.ofTwo_ne_jump _ _ _)
    · split at h
      · cases h
      · exact absurd h (Deed.ofTwo_ne_jump _ _ _)
    · cases h
    · split at h
      · rename_i u hu
        cases h
        simp [hu]
      · cases h
    · split at h
      · rename_i c yes no hu _
        cases h
        split <;> simp [hu]
      · cases h
    · split at h <;> cases h
    · cases h

/-! ## Hops -/

namespace Graph

/-- A run goes over blocks that pass it on and has nothing else changed. -/
theorem WellFormed.after_leads {g : Graph} (h : g.WellFormed) (known : String → Option Graph)
    (o : Oracle) {b c : BlockId} (hb : b ∈ g.order) (hl : g.Leads b c) {s : Running}
    (hg : s.now.graph = g) {block : Block} (hblock : g.block? b = some block)
    (hcode : s.now.code = block.code) :
    ∃ n last, g.block? c = some last ∧ (runs known o).after n s =
      some { s with now := { s.now with code := last.code } } := by
  induction hl generalizing s block with
  | refl a =>
    refine ⟨0, block, hblock, ?_⟩
    rw [← hcode]
    rfl
  | hop _ ht _ ih =>
    obtain ⟨block', i, hb', hi, hh⟩ := passTarget?_eq_some.mp ht
    rw [hblock] at hb'
    cases hb'
    obtain ⟨hc, hop⟩ := Block.code_of_soleBranch? hi
    have hfits := h.block_of_mem hb hblock
    have him : i ∈ block.code := by simp [hc]
    obtain ⟨u, hu⟩ := (hfits.fits i him).br_args hop
    have htu : i.targets = [u] := by simp [Action.targets, hu, Operand.block?]
    rw [htu] at hh
    cases hh
    have hmem := h.passTarget?_inside hb ht
    obtain ⟨next, hnext, -⟩ := h.block _ hmem
    -- the branch is all that the block has, so one step goes over it
    have hstep : (runs known o).step s =
        .next { s with now := { s.now with code := next.code } } := by
      show s.step known o = _
      unfold Running.step
      rw [hcode, hc]
      simp only [Instr.perform_br hop hu, hg, hnext]
    obtain ⟨n, last, hlast, hafter⟩ := ih hmem (s := { s with now := { s.now with code := next.code } })
      hg hnext rfl
    refine ⟨1 + n, last, hlast, ?_⟩
    rw [Machine.after_add, Machine.after_one.mpr hstep]
    exact hafter

/-! ## A graph with hops left out -/

/-- The graph `g'` is `g` with hops left out: at the blocks where runs of `g` come by,
those with `p`, the map `f` follows blocks that pass a run on, and the block where it
ends is the same in both, but for branches passed through `f`. -/
structure Shortens (g' g : Graph) (f : BlockId → BlockId) (p : BlockId → Prop) : Prop where
  listed : ∀ b, p b → b ∈ g.order
  leads : ∀ b, p b → g.Leads b (f b)
  block : ∀ b, p b → ∀ block, g.block? (f b) = some block →
    g'.block? (f b) = some (block.retarget f) ∧ ∀ i ∈ block.code, ∀ t ∈ i.targets, p t
  entry : ∀ e, g.entry = some e → p e ∧ g'.entry = some (f e)

/-- A run of the graph with hops left out, beside a run of the first graph. -/
structure Beside (g' g : Graph) (f : BlockId → BlockId) (p : BlockId → Prop) (s' s : Running) :
    Prop where
  graph' : s'.now.graph = g'
  graph : s.now.graph = g
  args : s'.now.args = s.now.args
  env : s'.now.env = s.now.env
  code : s'.now.code = s.now.code.map (Instr.retarget f)
  inside : ∀ i ∈ s.now.code, ∀ t ∈ i.targets, p t
  alone' : s'.waiting = []
  alone : s.waiting = []
  calls : s'.calls = s.calls

theorem Beside.jump {g' g : Graph} {f : BlockId → BlockId} {p : BlockId → Prop} {s' s : Running}
    (h : Beside g' g f p s' s) (known : String → Option Graph) (o : Oracle) (hwf : g.WellFormed)
    (hs : Shortens g' g f p) {b : BlockId} (hb : p b) {block : Block}
    (hblock : g.block? b = some block) :
    ∃ block' n t, g'.block? (f b) = some block' ∧
      (runs known o).after n { s with now := { s.now with code := block.code } } = some t ∧
      Beside g' g f p { s' with now := { s'.now with code := block'.code } } t := by
  obtain ⟨n, last, hlast, hafter⟩ := hwf.after_leads known o (hs.listed b hb)
    (hs.leads b hb) (s := { s with now := { s.now with code := block.code } }) h.graph hblock rfl
  obtain ⟨hsame, hin⟩ := hs.block b hb last hlast
  exact ⟨_, n, _, hsame, hafter,
    ⟨h.graph', h.graph, h.args, h.env, rfl, hin, h.alone', h.alone, h.calls⟩⟩

theorem Beside.step {g' g : Graph} {f : BlockId → BlockId} {p : BlockId → Prop} {s' s : Running}
    (h : Beside g' g f p s' s) (o : Oracle) (hwf : g.WellFormed) (hs : Shortens g' g f p) :
    match s'.step (fun _ => none) o with
    | .next t' => ∃ n t, (runs (fun _ => none) o).after (n + 1) s = some t ∧ Beside g' g f p t' t
    | .done x => s.step (fun _ => none) o = .done x
    | .stuck => s.step (fun _ => none) o = .stuck := by
  have hone : ∀ t, s.step (fun _ => none) o = .next t → (runs (fun _ => none) o).after 1 s = some t :=
    fun t ht => Machine.after_one.mpr ht
  unfold Running.step at hone ⊢
  rw [h.code]
  cases hc : s.now.code with
  | nil => rfl
  | cons i rest =>
    have hin : ∀ j ∈ rest, ∀ t ∈ j.targets, p t := fun j hj =>
      h.inside j (by rw [hc]; exact List.mem_cons_of_mem _ hj)
    simp only [hc] at hone
    simp only [List.map_cons, Instr.perform_retarget, h.args, h.env, h.alone', h.alone, h.calls,
      Instr.retarget_id]
    cases hd : i.perform s.now.args s.now.env with
    | give x =>
      simp only [hd] at hone
      refine ⟨0, _, hone _ rfl, ?_⟩
      exact ⟨h.graph', h.graph, rfl, rfl, rfl, hin, rfl, h.alone, rfl⟩
    | call e =>
      simp only [hd] at hone
      refine ⟨0, _, hone _ rfl, ?_⟩
      exact ⟨h.graph', h.graph, rfl, rfl, rfl, hin, rfl, h.alone, rfl⟩
    | jump b =>
      have hb : p b := h.inside i (by simp [hc]) b (Instr.mem_targets_of_jump hd)
      -- the first graph jumps to `b` itself and then takes the hops to `f b`
      obtain ⟨block, hblock, -⟩ := hwf.block b (hs.listed b hb)
      obtain ⟨block', n, t, hblock', hafter, hbeside⟩ :=
        h.jump (fun _ => none) o hwf hs hb hblock
      simp only [hd, h.graph, hblock] at hone
      simp only [h.graph', h.args, h.env, h.alone', h.calls] at hbeside
      simp only [Deed.retarget, h.graph', hblock']
      refine ⟨n, t, ?_, hbeside⟩
      rw [Nat.add_comm, Machine.after_add, hone _ rfl, Option.bind_some]
      simpa only [h.graph] using hafter
    | leave x => rfl
    | fail => rfl

/-- Each step of the graph with hops left out is matched by steps of the first graph. -/
theorem Shortens.simulates {g' g : Graph} {f : BlockId → BlockId} {p : BlockId → Prop}
    (hwf : g.WellFormed) (hs : Shortens g' g f p) (o : Oracle) :
    Machine.Simulates (runs (fun _ => none) o) (runs (fun _ => none) o) (Beside g' g f p) := by
  refine ⟨fun s' s h => h.calls, ?_, ?_, ?_⟩
  · intro s' s x h hd
    have hstep := h.step o hwf hs
    rw [show s'.step (fun _ => none) o = .done x from hd] at hstep
    exact hstep
  · intro s' s h hd
    have hstep := h.step o hwf hs
    rw [show s'.step (fun _ => none) o = .stuck from hd] at hstep
    exact hstep
  · intro s' s t' h hn
    have hstep := h.step o hwf hs
    rw [show s'.step (fun _ => none) o = .next t' from hn] at hstep
    exact hstep

/-- A graph with hops left out behaves as before. -/
theorem Shortens.behaves_iff {g' g : Graph} {f : BlockId → BlockId} {p : BlockId → Prop}
    (hwf : g.WellFormed) (hs : Shortens g' g f p) (args : List Int64) (o : Oracle) (b : Behaviour) :
    g'.Behaves args o b ↔ g.Behaves args o b := by
  obtain ⟨e, hem, he⟩ := hwf.entry
  obtain ⟨hpe, he'⟩ := hs.entry e he
  obtain ⟨block, hblock, -⟩ := hwf.block e hem
  have hstart : g.activation args = { graph := g, args := args, code := block.code } := by
    simp [activation, entryBlock?, he, hblock]
  obtain ⟨n, last, hlast, hafter⟩ := hwf.after_leads (fun _ => none) o hem (hs.leads e hpe)
    (s := { now := g.activation args }) rfl hblock (by rw [hstart])
  obtain ⟨hlast', hin⟩ := hs.block e hpe last hlast
  have hstart' : g'.activation args =
      { graph := g', args := args, code := (last.retarget f).code } := by
    simp [activation, entryBlock?, he', hlast']
  unfold Graph.Behaves
  refine (hs.simulates hwf o).behaves_iff hafter ?_ b
  rw [hstart, hstart']
  exact ⟨rfl, rfl, rfl, rfl, rfl, hin, rfl, rfl, rfl⟩

/-! ## The two edits -/

theorem Bypassing.shortens {g : Graph} (hwf : g.WellFormed) {gone : List BlockId}
    {f : BlockId → BlockId} (h : g.Bypassing gone f) :
    Shortens (g.bypassed gone f) g f (· ∈ g.order) := by
  refine ⟨fun _ hb => hb, fun b _ => (h.follows b).mono fun _ _ => trivial, ?_, ?_⟩
  · intro b hb block hblock
    have hfb := h.inside hwf b hb
    refine ⟨?_, (hwf.block_of_mem hfb hblock).inside⟩
    rw [block?_bypassed f hfb (h.lands b), hblock]
    rfl
  · intro e he
    obtain ⟨e', hem, he'⟩ := hwf.entry
    rw [he] at he'
    cases he'
    refine ⟨hem, ?_⟩
    show g.entry.map f = some (f e)
    rw [he]
    rfl

theorem Dead.shortens {g : Graph} (hwf : g.WellFormed) {dead : List BlockId}
    (h : g.Dead dead) : Shortens (g.without dead) g (fun b => b) g.Reaches := by
  refine ⟨fun _ hb => hwf.mem_of_reaches hb, fun b _ => .refl b, ?_, ?_⟩
  · intro b hb block hblock
    have hlive : b ∉ dead := fun hin => ((h b).mp hin).2 hb
    constructor
    · rw [block?_without, if_neg hlive, hblock, Block.retarget_self]
    · exact fun i hi t ht => hwf.reaches_target hb hblock hi ht
  · exact fun e he => ⟨hwf.reaches_entry he, he⟩

end Graph

/-! ## Every run of a pipeline -/

/-- A graph is well formed and has the name and the behaviours of another. -/
structure Graph.SameMeaning (g g' : Graph) : Prop where
  wellFormed : g'.WellFormed
  name : g'.name = g.name
  behaves : ∀ args o b, g'.Behaves args o b ↔ g.Behaves args o b

theorem Pipeline.keeps_meaning {p : Pipeline Graph} (hp : ∀ q ∈ p.passes, q ∈ registeredPasses)
    (g : Graph) : p.Keeps g.SameMeaning := by
  apply keeps_registered hp
  · exact fun _ h => h.wellFormed
  · intro g' gone f h hlooked
    refine ⟨hlooked.bypassing.wellFormed h.wellFormed, h.name, fun args o b => ?_⟩
    exact ((hlooked.bypassing.shortens h.wellFormed).behaves_iff h.wellFormed args o b).trans
      (h.behaves args o b)
  · intro g' dead h hdead
    refine ⟨hdead.wellFormed h.wellFormed, h.name, fun args o b => ?_⟩
    exact ((hdead.shortens h.wellFormed).behaves_iff h.wellFormed args o b).trans
      (h.behaves args o b)

/-- A pipeline of registered passes does not change what a graph does. On a graph
without a fault it comes to no failure but that of rounds run out, and what it then
leaves behaves as before, too. -/
theorem Pipeline.a_run_keeps_the_meaning (p : Pipeline Graph)
    (hp : ∀ q ∈ p.passes, q ∈ registeredPasses) (g : Graph) (hg : g.fault? = none) :
    ((p.run g).error = none ∨
      (p.run g).error = some (.noFixpoint g.name p.roundLimit)) ∧
    ∀ (args : List Int64) (o : Oracle) (b : Behaviour),
      (p.run g).state.Behaves args o b ↔ g.Behaves args o b := by
  have hsame : g.SameMeaning g := ⟨Graph.fault?_eq_none.mp hg, rfl, fun _ _ _ => Iff.rfl⟩
  obtain ⟨hleft, herr⟩ := (keeps_meaning hp g).run hsame
  refine ⟨?_, hleft.behaves⟩
  rw [← hleft.name]
  exact herr

/-- A function that goes over two blocks to a call, and has a block that it never comes to. -/
def Graph.detour : Graph where
  name := "detour"
  slots :=
    [some { id := 0, name := "start", code := [{ op := .br, args := [.block 1], id := 0, block := 0 }] },
     some { id := 1, name := "hop", code := [{ op := .br, args := [.block 2], id := 1, block := 1 }] },
     some { id := 2, name := "work",
            code := [{ op := .arg, id := 2, block := 2 },
                     { op := .call, args := [.value 2], sym := "f", id := 3, block := 2 },
                     { op := .ret, args := [.value 3], id := 4, block := 2 }] },
     some { id := 3, name := "lost", code := [{ op := .ret, id := 5, block := 3 }] }]
  order := [0, 1, 2, 3]
  entry := some 0
  nextValue := 6

/-- One round of both passes, which is not enough to see that nothing is left to do. -/
def Pipeline.oneRound : Pipeline Graph where
  passes := [unreachableBlockElimination, emptyBlockElimination]
  maxRounds := 1
  onLimit := .reject
  verify := true

theorem Pipeline.a_run_keeps_the_meaning_of_detour :
    Graph.detour.fault? = none ∧
    (oneRound.run Graph.detour).error = some (.noFixpoint "detour" 1) ∧
    (oneRound.run Graph.detour).state.Behaves [5] (fun _ _ => 9)
      (.returns [{ callee := "f", args := [5] }] 9) := by
  have hg : Graph.detour.fault? = none := by decide
  have hp : ∀ q ∈ oneRound.passes, q ∈ registeredPasses := by
    simp [oneRound, registeredPasses]
  refine ⟨hg, by decide, ?_⟩
  refine ((a_run_keeps_the_meaning oneRound hp Graph.detour hg).2 [5] (fun _ _ => 9) _).mpr ?_
  exact ⟨4, _, rfl, rfl, rfl⟩

end FlowGraph

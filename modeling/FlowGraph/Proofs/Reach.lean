import Mathlib.Data.List.Chain
import Mathlib.Data.List.Nodup
import FlowGraph.Pass.Reach
import FlowGraph.Proofs.KeySet
import FlowGraph.Proofs.WellFormed

/-!
The laws of reaching blocks. The search for reachable blocks ends and marks a
block exactly when a path of branches leads to it from a live entry. That is so
in every graph without negative block numbers in its code: it need not be well
formed, and branches may lead to blocks that are not there.
-/

namespace FlowGraph.Graph

/-- A path of branches leads from the live entry to the block. -/
inductive Reaches (g : Graph) : BlockId → Prop
  | entry {e : BlockId} : g.entry = some e → g.has e = true → Reaches g e
  | edge {a b : BlockId} : Reaches g a → b ∈ g.successors a → Reaches g b

theorem Reaches.live_entry {g : Graph} {b : BlockId} (h : g.Reaches b) :
    ∃ e, g.entry = some e ∧ g.has e = true := by
  induction h with
  | entry he hlive => exact ⟨_, he, hlive⟩
  | edge _ _ ih => exact ih

/-- Only instructions name successors. -/
theorem mem_code_of_mem_successors {g : Graph} {a t : BlockId} (h : t ∈ g.successors a) :
    ∃ b i, g.block? a = some b ∧ i ∈ b.code ∧ t ∈ i.targets := by
  unfold successors at h
  cases hb : g.block? a with
  | none => simp [hb] at h
  | some b =>
    simp only [hb, Option.map_some, Option.getD_some] at h
    unfold Block.targets at h
    cases hi : b.terminator? with
    | none => simp [hi] at h
    | some i =>
      obtain ⟨hlast, -⟩ := Option.filter_eq_some_iff.mp hi
      exact ⟨b, i, rfl, List.mem_of_getLast? hlast, by simpa [hi] using h⟩

theorem WellFormed.mem_of_reaches {g : Graph} (h : g.WellFormed) {b : BlockId}
    (hr : g.Reaches b) : b ∈ g.order := by
  induction hr with
  | entry he _ =>
    obtain ⟨e, hem, hee⟩ := h.entry
    rw [he] at hee
    cases hee
    exact hem
  | edge _ hs ih => exact h.successors_inside ih hs

theorem WellFormed.reaches_entry {g : Graph} (h : g.WellFormed) {e : BlockId}
    (he : g.entry = some e) : g.Reaches e := by
  obtain ⟨e', hem, hee⟩ := h.entry
  rw [he] at hee
  cases hee
  obtain ⟨b, hb, -⟩ := h.block e hem
  exact .entry he (has_iff.mpr ⟨b, hb⟩)

/-- A path goes on over each block that an instruction of a reached block names. -/
theorem WellFormed.reaches_target {g : Graph} (h : g.WellFormed) {b t : BlockId} {block : Block}
    {i : Instr} (hr : g.Reaches b) (hb : g.block? b = some block) (hi : i ∈ block.code)
    (ht : t ∈ i.targets) : g.Reaches t := by
  have hfits := h.block_of_mem (h.mem_of_reaches hr) hb
  refine .edge hr ?_
  rw [successors_eq hb]
  exact (Block.mem_targets hfits.ends hfits.tidy).mpr ⟨i, hi, ht⟩

/-! ## One visit -/

/-- Marking the blocks found on a visit puts the new ones on the list, each once. -/
theorem markAll_spec (found work : List BlockId) (reached : KeySet) (hn : ∀ b ∈ found, 0 ≤ b) :
    ∃ new reached', markAll found work reached = some (new ++ work, reached') ∧
      new.Nodup ∧ (∀ x, x ∈ new ↔ x ∈ found ∧ reached.contains x = false) ∧
      ∀ x, reached'.contains x = true ↔ reached.contains x = true ∨ x ∈ found := by
  induction found generalizing work reached with
  | nil => exact ⟨[], reached, rfl, by simp, by simp, by simp⟩
  | cons b found ih =>
    have hn' : ∀ x ∈ found, 0 ≤ x := fun x hx => hn x (List.mem_cons_of_mem _ hx)
    obtain ⟨⟨was, marked⟩, hm⟩ := KeySet.testAndInsert?_isSome (s := reached)
      (hn b (List.mem_cons_self ..))
    obtain ⟨hwas, hmarked⟩ := KeySet.testAndInsert?_spec hm
    unfold markAll
    rw [hm]
    cases was with
    | true =>
      obtain ⟨new, r, h1, h2, h3, h4⟩ := ih work marked hn'
      refine ⟨new, r, h1, h2, ?_, ?_⟩
      · intro x
        rw [h3, hmarked]
        by_cases hx : x = b
        · subst hx; simp [← hwas]
        · simp [hx]
      · intro x
        rw [h4, hmarked]
        by_cases hx : x = b <;> simp [hx]
    | false =>
      obtain ⟨new, r, h1, h2, h3, h4⟩ := ih (b :: work) marked hn'
      have hb : b ∉ new := by
        intro hb
        have := ((h3 b).mp hb).2
        simp [hmarked] at this
      refine ⟨new ++ [b], r, by simp [h1], ?_, ?_, ?_⟩
      · rw [List.nodup_append]
        refine ⟨h2, List.nodup_singleton b, ?_⟩
        intro x hx y hy
        rw [List.mem_singleton] at hy
        subst hy
        rintro rfl
        exact hb hx
      · intro x
        rw [List.mem_append, h3, hmarked]
        by_cases hx : x = b
        · subst hx; simp [← hwas]
        · simp [hx]
      · intro x
        rw [h4, hmarked]
        by_cases hx : x = b <;> simp [hx]

/-! ## The whole search -/

/-- What holds while the search goes on: the marked blocks are those visited and
those on the list, all of them can be reached, and a visited block has all its
successors marked. -/
structure Searching (g : Graph) (visited work : List BlockId) (reached : KeySet) : Prop where
  nodup : work.Nodup
  fresh : ∀ b ∈ work, b ∉ visited
  marked : ∀ b, reached.contains b = true ↔ b ∈ visited ∨ b ∈ work
  sound : ∀ b, reached.contains b = true → g.Reaches b
  closed : ∀ a ∈ visited, ∀ b ∈ g.successors a, reached.contains b = true
  entry : ∀ e, g.entry = some e → reached.contains e = true

theorem Searching.done {g : Graph} {visited : List BlockId} {reached : KeySet}
    (h : g.Searching visited [] reached) (b : BlockId) :
    reached.contains b = true ↔ g.Reaches b := by
  refine ⟨h.sound b, fun hr => ?_⟩
  induction hr with
  | entry he _ => exact h.entry _ he
  | edge _ hs ih =>
    rcases (h.marked _).mp ih with hv | hv
    · exact h.closed _ hv _ hs
    · cases hv

theorem Searching.visit {g : Graph} {visited work new : List BlockId} {b : BlockId}
    {reached reached' : KeySet} (h : g.Searching visited (b :: work) reached) (hnew : new.Nodup)
    (hmem : ∀ x, x ∈ new ↔ x ∈ g.successors b ∧ reached.contains x = false)
    (hmark : ∀ x, reached'.contains x = true ↔
      reached.contains x = true ∨ x ∈ g.successors b) :
    g.Searching (b :: visited) (new ++ work) reached' := by
  obtain ⟨hb, hwork⟩ := List.nodup_cons.mp h.nodup
  have hbmark : reached.contains b = true := (h.marked b).mpr (.inr (List.mem_cons_self ..))
  have hold : ∀ x ∈ b :: work, x ∉ new := by
    intro x hx hxn
    have hc := (h.marked x).mpr (.inr hx)
    rw [((hmem x).mp hxn).2] at hc
    cases hc
  refine ⟨?_, ?_, ?_, ?_, ?_, ?_⟩
  · rw [List.nodup_append]
    refine ⟨hnew, hwork, ?_⟩
    rintro x hx y hy rfl
    exact hold x (List.mem_cons_of_mem _ hy) hx
  · intro x hx hxv
    rcases List.mem_append.mp hx with hx | hx
    · rcases List.mem_cons.mp hxv with rfl | hxv
      · exact hold x (List.mem_cons_self ..) hx
      · have hc := (h.marked x).mpr (.inl hxv)
        rw [((hmem x).mp hx).2] at hc
        cases hc
    · rcases List.mem_cons.mp hxv with rfl | hxv
      · exact hb hx
      · exact h.fresh x (List.mem_cons_of_mem _ hx) hxv
  · intro x
    rw [hmark, h.marked, List.mem_cons, List.mem_cons, List.mem_append, hmem]
    constructor
    · rintro ((hx | hx | hx) | hx)
      · exact .inl (.inr hx)
      · exact .inl (.inl hx)
      · exact .inr (.inr hx)
      · by_cases hc : reached.contains x = true
        · rcases (h.marked x).mp hc with hv | hv
          · exact .inl (.inr hv)
          · rcases List.mem_cons.mp hv with hv | hv
            · exact .inl (.inl hv)
            · exact .inr (.inr hv)
        · exact .inr (.inl ⟨hx, by simpa using hc⟩)
    · rintro ((hx | hx) | hx | hx)
      · exact .inl (.inr (.inl hx))
      · exact .inl (.inl hx)
      · exact .inr hx.1
      · exact .inl (.inr (.inr hx))
  · intro x hx
    rcases (hmark x).mp hx with hx | hx
    · exact h.sound x hx
    · exact .edge (h.sound b hbmark) hx
  · intro a ha x hx
    rw [hmark]
    rcases List.mem_cons.mp ha with rfl | ha
    · exact .inr hx
    · exact .inl (h.closed a ha x hx)
  · intro e he
    exact (hmark e).mpr (.inl (h.entry e he))

/-- The search ends with the blocks that can be reached. -/
theorem explore_spec {g : Graph} (hn : ∀ a, g.Reaches a → ∀ b ∈ g.successors a, 0 ≤ b)
    (visited work : List BlockId) (reached : KeySet) (h : g.Searching visited work reached) :
    ∃ r, g.explore work reached = some r ∧ ∀ b, r.contains b = true ↔ g.Reaches b := by
  -- on the visits that are still to be made
  fun_induction explore g work reached generalizing visited with
  | case1 reached => exact ⟨reached, rfl, h.done⟩
  | case2 reached b work hmk =>
    have hbr : g.Reaches b := h.sound b ((h.marked b).mpr (.inr (List.mem_cons_self ..)))
    obtain ⟨new, reached', hmk', -⟩ := markAll_spec (g.successors b) work reached (hn b hbr)
    rw [hmk] at hmk'
    cases hmk'
  | case3 reached b work work' reached' hmk ih =>
    have hbr : g.Reaches b := h.sound b ((h.marked b).mpr (.inr (List.mem_cons_self ..)))
    obtain ⟨new, marked, hmk', hnew, hmem, hmark⟩ :=
      markAll_spec (g.successors b) work reached (hn b hbr)
    rw [hmk] at hmk'
    cases hmk'
    exact ih (b :: visited) (h.visit hnew hmem hmark)

/-- The search finds the blocks that a path leads to from a live entry. -/
theorem reachable?_spec {g : Graph} (hn : ∀ a, g.Reaches a → ∀ b ∈ g.successors a, 0 ≤ b) :
    ∃ r, g.reachable? = some r ∧ ∀ b, r.contains b = true ↔ g.Reaches b := by
  unfold reachable?
  cases he : g.entry.filter g.has with
  | none =>
    refine ⟨_, rfl, fun b => ?_⟩
    simp only [KeySet.contains_ofSize, Bool.false_eq_true, false_iff]
    intro hr
    obtain ⟨e, hee, hlive⟩ := hr.live_entry
    simp [hee, Option.filter, hlive] at he
  | some e =>
    obtain ⟨hee, hlive⟩ := Option.filter_eq_some_iff.mp he
    obtain ⟨b, hb⟩ := has_iff.mp hlive
    obtain ⟨start, hstart⟩ := KeySet.insert?_isSome (s := KeySet.ofSize g.cap) (nonneg_of_block? hb)
    have hc : ∀ x, start.contains x = true ↔ x = e := by
      intro x
      rw [KeySet.contains_insert? hstart]
      simp
    simp only [hstart]
    apply explore_spec hn [] [e] start
    refine ⟨by simp, by simp, by simpa using hc, ?_, by simp, ?_⟩
    · intro x hx
      rw [(hc x).mp hx]
      exact .entry hee hlive
    · intro x hx
      rw [hee] at hx
      cases hx
      exact (hc e).mpr rfl

theorem WellFormed.reachable? {g : Graph} (h : g.WellFormed) :
    ∃ r, g.reachable? = some r ∧ ∀ b, r.contains b = true ↔ g.Reaches b := by
  apply reachable?_spec
  intro a ha b hb
  exact h.nonneg (h.successors_inside (h.mem_of_reaches ha) hb)

/-! ## Paths -/

/-- Blocks from one to another, each but the first of which the one before it branches to. -/
structure IsPath (g : Graph) (path : List BlockId) (a b : BlockId) : Prop where
  first : path.head? = some a
  last : path.getLast? = some b
  edges : path.IsChain fun x y => y ∈ g.successors x

theorem IsPath.single (g : Graph) (a : BlockId) : g.IsPath [a] a a :=
  ⟨rfl, rfl, .singleton a⟩

theorem IsPath.snoc {g : Graph} {path : List BlockId} {a b c : BlockId} (h : g.IsPath path a b)
    (hc : c ∈ g.successors b) : g.IsPath (path ++ [c]) a c := by
  refine ⟨by simp [h.first], by simp, ?_⟩
  rw [List.isChain_append]
  refine ⟨h.edges, .singleton c, ?_⟩
  intro x hx y hy
  rw [h.last] at hx
  cases hx
  cases hy
  exact hc

/-- From a live entry the blocks are reached that a path leads to. -/
theorem reaches_iff_path {g : Graph} {e : BlockId} (he : g.entry = some e)
    (hlive : g.has e = true) (x : BlockId) : g.Reaches x ↔ ∃ path, g.IsPath path e x := by
  constructor
  · intro hr
    induction hr with
    | entry he' _ =>
      rw [he] at he'
      cases he'
      exact ⟨[e], .single g e⟩
    | edge _ hs ih =>
      obtain ⟨path, hpath⟩ := ih
      exact ⟨_, hpath.snoc hs⟩
  · rintro ⟨path, hpath⟩
    -- all blocks on the way are reached, the first one as the entry
    have hall := hpath.edges.induction g.Reaches path (fun _ _ hs hr => .edge hr hs) (by
      intro hne
      have hhead := hpath.first
      rw [List.head?_eq_some_head hne] at hhead
      cases hhead
      exact .entry he hlive)
    exact hall x (List.mem_of_getLast? hpath.last)

/-- The search comes to an end on every graph whose code names no negative block, whether the
blocks are there or not. It finds nothing when the entry is not live, and otherwise the
blocks that a path leads to from the entry. -/
theorem the_search_finds_what_paths_lead_to (g : Graph)
    (hn : ∀ id b, g.block? id = some b → ∀ i ∈ b.code, ∀ t ∈ i.targets, 0 ≤ t) :
    ∃ r, g.reachable? = some r ∧
      ((∀ e, g.entry = some e → g.has e = false) → r.toList = []) ∧
      ∀ e, g.entry = some e → g.has e = true → ∀ x,
        x ∈ r.toList.map Int.ofNat ↔ ∃ path, g.IsPath path e x := by
  obtain ⟨r, hr, hreach⟩ := g.reachable?_spec (by
    intro a _ t ht
    obtain ⟨b, i, hb, hi, hit⟩ := mem_code_of_mem_successors ht
    exact hn a b hb i hi t hit)
  refine ⟨r, hr, ?_, ?_⟩
  · intro hdead
    rw [List.eq_nil_iff_forall_not_mem]
    intro n hmem
    obtain ⟨e, he, hlive⟩ := ((hreach n).mp (KeySet.mem_toList.mp hmem)).live_entry
    rw [hdead e he] at hlive
    cases hlive
  · intro e he hlive x
    rw [KeySet.mem_map_toList, hreach, reaches_iff_path he hlive]

/-- A function with a branch to a block that was never made, one with both targets alike, a
cycle, and a block that no path comes to. -/
def frayed : Graph where
  name := "frayed"
  slots :=
    [some { id := 0, name := "in",
            code := [{ op := .arg, id := 0, block := 0 },
                     { op := .brif, args := [.value 0, .block 2, .block 2], id := 1, block := 0 }] },
     some { id := 1, name := "lost", code := [{ op := .br, args := [.block 0], id := 2, block := 1 }] },
     some { id := 2, name := "loop",
            code := [{ op := .arg, id := 3, block := 2 },
                     { op := .brif, args := [.value 3, .block 0, .block 70], id := 4, block := 2 }] }]
  order := [0, 1, 2]
  entry := some 0
  nextValue := 5

theorem the_search_finds_what_paths_of_frayed_lead_to :
    (∀ id b, frayed.block? id = some b → ∀ i ∈ b.code, ∀ t ∈ i.targets, 0 ≤ t) ∧
    ∃ r, frayed.reachable? = some r ∧ r.toList = [0, 2, 70] ∧
      ∀ x, x ∈ r.toList.map Int.ofNat ↔ ∃ path, frayed.IsPath path 0 x := by
  have hn : ∀ id b, frayed.block? id = some b → ∀ i ∈ b.code, ∀ t ∈ i.targets, 0 ≤ t := by
    have hall : ∀ b ∈ frayed.slots.filterMap id, ∀ i ∈ b.code, ∀ t ∈ i.targets, 0 ≤ t := by
      decide
    intro id b hb
    rw [block?_of_nonneg (nonneg_of_block? hb)] at hb
    have hslot := List.mem_of_getElem? (Option.join_eq_some_iff.mp hb)
    exact hall b (List.mem_filterMap.mpr ⟨some b, hslot, rfl⟩)
  obtain ⟨r, hr, -, hpaths⟩ := the_search_finds_what_paths_lead_to frayed hn
  have hkeys : frayed.reachable?.map KeySet.toList = some [0, 2, 70] := by decide
  rw [hr] at hkeys
  exact ⟨hn, r, hr, Option.some.inj hkeys, hpaths 0 rfl (by decide)⟩

end FlowGraph.Graph

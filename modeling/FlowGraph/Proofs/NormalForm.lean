import FlowGraph.Proofs.Passes
import FlowGraph.Proofs.Representative

/-!
What both passes come to in the end. It can be read off the first graph: the
blocks that stay are those that a path from the entry comes to and that
represent themselves, and every branch goes to a representative. So the order
of the passes has no part in it.
-/

namespace FlowGraph

namespace Graph

/-- The block has one instruction, which is a branch. -/
def PassThrough (g : Graph) (b : BlockId) : Prop :=
  ∃ block i, g.block? b = some block ∧ block.code = [i] ∧ i.op = .br

/-- The graph that is left when nothing remains to be done. Its blocks, in the order
that they had, are those that a path comes to and that do something or are the last on
a cycle that does nothing. All branches and the entry go to representatives, and
nothing else is changed. -/
structure IsNormalForm (g n : Graph) : Prop where
  name : n.name = g.name
  cap : n.cap = g.cap
  nextValue : n.nextValue = g.nextValue
  entry : n.entry = g.entry.map g.rep
  order : n.order.Sublist g.order
  live : ∀ b, b ∈ n.order ↔ g.Reaches b ∧ (¬ g.PassThrough b ∨ g.LastOnCycle b)
  block : ∀ b ∈ n.order, n.block? b = (g.block? b).map (Block.retarget g.rep)
  removed : ∀ b ∈ g.order, b ∉ n.order → n.block? b = none
  others : ∀ b, b ∉ g.order → n.block? b = g.block? b

/-- A graph has one normal form. -/
theorem IsNormalForm.unique {g n n' : Graph} (hn : g.order.Nodup) (h : g.IsNormalForm n)
    (h' : g.IsNormalForm n') : n = n' := by
  have hmem : ∀ b, b ∈ n.order ↔ b ∈ n'.order := fun b => (h.live b).trans (h'.live b).symm
  have horder : n.order = n'.order := by
    rw [eq_filter_of_sublist h.order hn, eq_filter_of_sublist h'.order hn]
    simp only [hmem]
  refine ext_block? (h.name.trans h'.name.symm) horder (h.entry.trans h'.entry.symm)
    (h.nextValue.trans h'.nextValue.symm) (h.cap.trans h'.cap.symm) ?_
  intro b
  by_cases hb : b ∈ g.order
  · by_cases hbn : b ∈ n.order
    · rw [h.block b hbn, h'.block b ((hmem b).mp hbn)]
    · rw [h.removed b hb hbn, h'.removed b hb (fun hb' => hbn ((hmem b).mpr hb'))]
  · rw [h.others b hb, h'.others b hb]

theorem WellFormed.passThrough_iff {g : Graph} (h : g.WellFormed) {b : BlockId}
    (hb : b ∈ g.order) : g.PassThrough b ↔ g.passTarget? b ≠ none := by
  obtain ⟨block, hblock, hfits⟩ := h.block b hb
  constructor
  · rintro ⟨block', i, hb', hc, hop⟩
    rw [hblock] at hb'
    cases hb'
    have hi : block.soleBranch? = some i := by simp [Block.soleBranch?, hc, hop]
    obtain ⟨t, ht, -⟩ := hfits.soleBranch? hi
    simp [passTarget?, hblock, hi, ht]
  · intro hne
    obtain ⟨t, ht⟩ := Option.ne_none_iff_exists'.mp hne
    obtain ⟨block', i, hb', hi, -⟩ := passTarget?_eq_some.mp ht
    obtain ⟨hc, hop⟩ := Block.code_of_soleBranch? hi
    exact ⟨block', i, hb', hc, hop⟩

/-- The blocks that represent themselves. -/
theorem WellFormed.rep_eq_self {g : Graph} (h : g.WellFormed) {b : BlockId} (hb : b ∈ g.order) :
    g.rep b = b ↔ ¬ g.PassThrough b ∨ g.LastOnCycle b := by
  rw [h.rep_eq_iff hb, h.passThrough_iff hb, not_not]
  exact ⟨fun hr => hr.2, fun hr => ⟨.refl b, hr⟩⟩

/-! ## Edits that keep the normal form -/

/-- The graph `g'` is `g` with branches and entry passed through `f` and some blocks
taken out. All is as it was for the blocks that a path comes to, and those that
represent themselves are still there. -/
structure Edited (g g' : Graph) (f : BlockId → BlockId) : Prop where
  wellFormed : g'.WellFormed
  name : g'.name = g.name
  cap : g'.cap = g.cap
  nextValue : g'.nextValue = g.nextValue
  entry : g'.entry = g.entry.map f
  order : g'.order.Sublist g.order
  reaches : ∀ b, g'.Reaches b ↔ g.Reaches b ∧ b ∈ g'.order
  rep : ∀ b, g.Reaches b → g'.rep (f b) = g.rep b
  keeps : ∀ b ∈ g'.order, f b = b
  stays : ∀ b, g.Reaches b → g.rep b = b → b ∈ g'.order
  block : ∀ b ∈ g'.order, g'.block? b = (g.block? b).map (Block.retarget f)
  removed : ∀ b ∈ g.order, b ∉ g'.order → g'.block? b = none
  others : ∀ b, b ∉ g.order → g'.block? b = g.block? b

theorem IsNormalForm.live_iff {g n : Graph} (hwf : g.WellFormed) (h : g.IsNormalForm n)
    (b : BlockId) : b ∈ n.order ↔ g.Reaches b ∧ g.rep b = b := by
  rw [h.live b]
  exact and_congr_right fun hr => (hwf.rep_eq_self (hwf.mem_of_reaches hr)).symm

theorem Edited.isNormalForm {g g' n : Graph} {f : BlockId → BlockId} (hwf : g.WellFormed)
    (he : Edited g g' f) (h : g'.IsNormalForm n) : g.IsNormalForm n := by
  -- the map keeps the blocks that stay, so they keep their representatives
  have hrep : ∀ b ∈ g'.order, g.Reaches b → g'.rep b = g.rep b := by
    intro b hb hr
    have := he.rep b hr
    rwa [he.keeps b hb] at this
  have hlive : ∀ b, b ∈ n.order ↔ g.Reaches b ∧ g.rep b = b := by
    intro b
    rw [h.live_iff he.wellFormed, he.reaches]
    constructor
    · rintro ⟨⟨hr, hb⟩, hself⟩
      exact ⟨hr, hrep b hb hr ▸ hself⟩
    · rintro ⟨hr, hself⟩
      have hb := he.stays b hr hself
      exact ⟨⟨hr, hb⟩, (hrep b hb hr).trans hself⟩
  constructor
  case name => exact h.name.trans he.name
  case cap => exact h.cap.trans he.cap
  case nextValue => exact h.nextValue.trans he.nextValue
  case entry =>
    obtain ⟨e, -, hee⟩ := hwf.entry
    rw [h.entry, he.entry, hee]
    simp only [Option.map_some, he.rep e (hwf.reaches_entry hee)]
  case order => exact h.order.trans he.order
  case live =>
    intro b
    rw [hlive]
    exact and_congr_right fun hr => hwf.rep_eq_self (hwf.mem_of_reaches hr)
  case block =>
    intro b hb
    have hr := ((hlive b).mp hb).1
    obtain ⟨block, hblock, -⟩ := hwf.block b (hwf.mem_of_reaches hr)
    rw [h.block b hb, he.block b (h.order.subset hb), hblock]
    simp only [Option.map_some, Block.retarget_retarget]
    congr 1
    apply Block.retarget_congr
    intro i hi t ht
    exact he.rep t (hwf.reaches_target hr hblock hi ht)
  case removed =>
    intro b hb hout
    by_cases hb' : b ∈ g'.order
    · exact h.removed b hb' hout
    · rw [h.others b hb', he.removed b hb hb']
  case others =>
    intro b hb
    rw [h.others b (fun hb' => hb (he.order.subset hb')), he.others b hb]

/-! ## Leading branches past blocks -/

section Bypassed

variable {g : Graph} {gone : List BlockId} {f : BlockId → BlockId}

theorem mem_bypassed_order {b : BlockId} :
    b ∈ (g.bypassed gone f).order ↔ b ∈ g.order ∧ b ∉ gone :=
  mem_without_order

theorem WellFormed.passTarget?_bypassed (hwf : g.WellFormed) {b : BlockId} (hb : b ∈ g.order)
    (hout : b ∉ gone) : (g.bypassed gone f).passTarget? b = (g.passTarget? b).map f := by
  obtain ⟨block, hblock, hfits⟩ := hwf.block b hb
  unfold passTarget?
  rw [block?_bypassed f hb hout, hblock]
  simp only [Option.map_some, Option.bind_some, Block.soleBranch?_retarget]
  cases hi : block.soleBranch? with
  | none => rfl
  | some i =>
    obtain ⟨t, ht, -⟩ := hfits.soleBranch? hi
    simp [Instr.retarget_targets, ht]

theorem WellFormed.successors_bypassed (hwf : g.WellFormed) {b : BlockId} (hb : b ∈ g.order)
    (hout : b ∉ gone) : (g.bypassed gone f).successors b = (g.successors b).map f := by
  obtain ⟨block, hblock, hfits⟩ := hwf.block b hb
  have hblock' : (g.bypassed gone f).block? b = some (block.retarget f) := by
    rw [block?_bypassed f hb hout, hblock]
    rfl
  rw [successors_eq hblock, successors_eq hblock', Block.retarget_targets hfits.ends]

/-- A walk to a block that stays is still there, from where the map takes its start. -/
theorem Bypassing.leads (h : g.Bypassing gone f) (hwf : g.WellFormed) {a c : BlockId}
    (ha : a ∈ g.order) (hl : g.Leads a c) (hc : c ∉ gone) :
    (g.bypassed gone f).Leads (f a) c := by
  induction hl with
  | refl a =>
    rw [h.keeps a hc]
    exact .refl a
  | @hop a t c _ ht _ ih =>
    have hrest := ih (hwf.passTarget?_inside ha ht) hc
    -- a hop from a removed block is left out, and any other is still one hop
    by_cases hg : a ∈ gone
    · obtain ⟨t', ht', hft⟩ := h.gone_eq hg
      rw [ht] at ht'
      cases ht'
      rwa [hft]
    · rw [h.keeps a hg]
      refine .hop trivial ?_ hrest
      rw [hwf.passTarget?_bypassed ha hg, ht]
      rfl

/-- A walk over what is left was there before, with hops that were left out. -/
theorem Bypassing.leads_of (h : g.Bypassing gone f) (hwf : g.WellFormed) {a c : BlockId}
    (ha : a ∈ (g.bypassed gone f).order) (hl : (g.bypassed gone f).Leads a c) : g.Leads a c := by
  induction hl with
  | refl a => exact .refl a
  | @hop a t c _ ht _ ih =>
    have hin := (h.wellFormed hwf).passTarget?_inside ha ht
    obtain ⟨hao, hag⟩ := mem_bypassed_order.mp ha
    rw [hwf.passTarget?_bypassed hao hag] at ht
    obtain ⟨u, hu, rfl⟩ := Option.map_eq_some_iff.mp ht
    exact .hop trivial hu (((h.follows u).mono fun _ _ => trivial).trans (ih hin))

theorem Bypassing.lastOnCycle (h : g.Bypassing gone f) (hwf : g.WellFormed) {b : BlockId}
    (hb : b ∈ g.order) (hout : b ∉ gone) (hl : g.LastOnCycle b) :
    (g.bypassed gone f).LastOnCycle b := by
  have hb' : b ∈ (g.bypassed gone f).order := mem_bypassed_order.mpr ⟨hb, hout⟩
  obtain ⟨⟨t, ht, hback⟩, hlast⟩ := hl
  refine ⟨⟨f t, ?_, h.leads hwf (hwf.passTarget?_inside hb ht) hback hout⟩, ?_⟩
  · rw [hwf.passTarget?_bypassed hb hout, ht]
    rfl
  · intro c hc
    have hc' := hc.inside (h.wellFormed hwf) hb'
    exact (idxOf_filter_le hc' hb').mpr (hlast c (h.leads_of hwf hb' hc))

theorem Looked.stays (h : g.Looked gone f) {a r : BlockId} (hr : g.Represents a r) :
    r ∉ gone := by
  intro hg
  rcases hr.2 with hnone | hlast
  · obtain ⟨t, ht, -⟩ := h.bypassing.gone_eq hg
    rw [hnone] at ht
    cases ht
  · exact h.last_stays r hg hlast

/-- A block has the representative that it had, where the map takes it. -/
theorem Looked.represents (h : g.Looked gone f) (hwf : g.WellFormed) {a r : BlockId}
    (ha : a ∈ g.order) (hr : g.Represents a r) : (g.bypassed gone f).Represents (f a) r := by
  have hout := h.stays hr
  obtain ⟨hl, hend⟩ := hr
  have hro := hl.inside hwf ha
  refine ⟨h.bypassing.leads hwf ha hl hout, ?_⟩
  rcases hend with hnone | hlast
  · left
    rw [hwf.passTarget?_bypassed hro hout, hnone]
    rfl
  · exact .inr (h.bypassing.lastOnCycle hwf hro hout hlast)

theorem Looked.rep_eq (h : g.Looked gone f) (hwf : g.WellFormed) {a : BlockId}
    (ha : a ∈ g.order) : (g.bypassed gone f).rep (f a) = g.rep a := by
  have hwf' := h.bypassing.wellFormed hwf
  have hfa : f a ∈ (g.bypassed gone f).order :=
    mem_bypassed_order.mpr ⟨h.bypassing.inside hwf a ha, h.bypassing.lands a⟩
  exact (hwf'.rep_eq_iff hfa _).mpr (h.represents hwf ha (hwf.represents_rep ha))

theorem Reaches.leads {a c : BlockId} (h : g.Reaches a) (hl : g.Leads a c) : g.Reaches c := by
  induction hl with
  | refl => exact h
  | hop _ ht _ ih => exact ih (.edge h (passTarget?_mem_successors ht))

theorem WellFormed.successors_of_passTarget? (hwf : g.WellFormed) {b t : BlockId}
    (hb : b ∈ g.order) (ht : g.passTarget? b = some t) : g.successors b = [t] := by
  obtain ⟨block, i, hblock, hi, hh⟩ := passTarget?_eq_some.mp ht
  obtain ⟨u, hu, -⟩ := (hwf.block_of_mem hb hblock).soleBranch? hi
  rw [hu] at hh
  cases hh
  rw [successors_eq hblock, Block.targets_of_soleBranch? hi, hu]

/-- A path goes on over what is left, past the blocks taken out. -/
theorem Bypassing.reaches (h : g.Bypassing gone f) (hwf : g.WellFormed) {b : BlockId}
    (hr : g.Reaches b) : (g.bypassed gone f).Reaches (f b) := by
  induction hr with
  | entry he _ =>
    refine (h.wellFormed hwf).reaches_entry ?_
    show g.entry.map f = _
    rw [he]
    rfl
  | @edge a b ha hs ih =>
    have hao := hwf.mem_of_reaches ha
    by_cases hg : a ∈ gone
    · obtain ⟨t, ht, hft⟩ := h.gone_eq hg
      rw [hwf.successors_of_passTarget? hao ht, List.mem_singleton] at hs
      subst hs
      rwa [hft] at ih
    · rw [h.keeps a hg] at ih
      refine .edge ih ?_
      rw [hwf.successors_bypassed hao hg]
      exact List.mem_map_of_mem hs

theorem Bypassing.reaches_of (h : g.Bypassing gone f) (hwf : g.WellFormed) {b : BlockId}
    (hr : (g.bypassed gone f).Reaches b) : g.Reaches b := by
  have hland : ∀ a, g.Reaches a → g.Reaches (f a) := fun a ha =>
    ha.leads ((h.follows a).mono fun _ _ => trivial)
  induction hr with
  | entry he _ =>
    obtain ⟨e, hee, rfl⟩ := Option.map_eq_some_iff.mp he
    exact hland e (hwf.reaches_entry hee)
  | @edge a b ha hs ih =>
    obtain ⟨hao, hag⟩ := mem_bypassed_order.mp ((h.wellFormed hwf).mem_of_reaches ha)
    rw [hwf.successors_bypassed hao hag] at hs
    obtain ⟨t, ht, rfl⟩ := List.mem_map.mp hs
    exact hland t (.edge ih ht)

theorem Looked.edited (h : g.Looked gone f) (hwf : g.WellFormed) :
    Edited g (g.bypassed gone f) f where
  wellFormed := h.bypassing.wellFormed hwf
  name := rfl
  cap := by simp [bypassed, moved, cap, without, retarget]
  nextValue := rfl
  entry := rfl
  order := List.filter_sublist
  reaches b := by
    constructor
    · exact fun hr => ⟨h.bypassing.reaches_of hwf hr, (h.bypassing.wellFormed hwf).mem_of_reaches hr⟩
    · rintro ⟨hr, hb⟩
      have := h.bypassing.reaches hwf hr
      rwa [h.bypassing.keeps b (mem_bypassed_order.mp hb).2] at this
  rep b hr := h.rep_eq hwf (hwf.mem_of_reaches hr)
  keeps b hb := h.bypassing.keeps b (mem_bypassed_order.mp hb).2
  stays b hr hself := by
    have hb := hwf.mem_of_reaches hr
    exact mem_bypassed_order.mpr ⟨hb, h.stays ((hwf.rep_eq_iff hb b).mp hself)⟩
  block b hb := by
    obtain ⟨hbo, hout⟩ := mem_bypassed_order.mp hb
    exact block?_bypassed f hbo hout
  removed := (cutTo_without (g := g.moved f) h.bypassing.listed).removed
  others b hb := by
    have hcut := cutTo_without (g := g.moved f) h.bypassing.listed
    exact (hcut.others b hb).trans (by rw [block?_moved, if_neg hb])

end Bypassed

/-! ## Taking out what no path comes to -/

section Dead

variable {g : Graph} {dead : List BlockId}

theorem Dead.block? (h : g.Dead dead) {b : BlockId} (hr : g.Reaches b) :
    (g.without dead).block? b = g.block? b := by
  rw [block?_without, if_neg (fun hb => ((h b).mp hb).2 hr)]

theorem Dead.passTarget? (h : g.Dead dead) {b : BlockId} (hr : g.Reaches b) :
    (g.without dead).passTarget? b = g.passTarget? b := by
  unfold Graph.passTarget?
  rw [h.block? hr]

theorem Dead.successors (h : g.Dead dead) {b : BlockId} (hr : g.Reaches b) :
    (g.without dead).successors b = g.successors b := by
  unfold Graph.successors
  rw [h.block? hr]

theorem Dead.reaches_iff (h : g.Dead dead) (hwf : g.WellFormed) {b : BlockId} :
    (g.without dead).Reaches b ↔ g.Reaches b := by
  constructor
  · intro hr
    induction hr with
    | entry he _ => exact hwf.reaches_entry he
    | edge _ hs ih =>
      rw [h.successors ih] at hs
      exact .edge ih hs
  · intro hr
    induction hr with
    | entry he _ => exact (h.wellFormed hwf).reaches_entry he
    | @edge a b ha hs ih =>
      refine .edge ih ?_
      rw [h.successors ha]
      exact hs

theorem Dead.leads_iff (h : g.Dead dead) {a c : BlockId} (hr : g.Reaches a) :
    (g.without dead).Leads a c ↔ g.Leads a c := by
  constructor
  · intro hl
    induction hl with
    | refl a => exact .refl a
    | hop _ ht _ ih =>
      rw [h.passTarget? hr] at ht
      exact .hop trivial ht (ih (.edge hr (passTarget?_mem_successors ht)))
  · intro hl
    induction hl with
    | refl a => exact .refl a
    | hop _ ht _ ih =>
      refine .hop trivial ?_ (ih (.edge hr (passTarget?_mem_successors ht)))
      rw [h.passTarget? hr]
      exact ht

theorem Dead.mem_order (h : g.Dead dead) (hwf : g.WellFormed) {b : BlockId} :
    b ∈ (g.without dead).order ↔ g.Reaches b := by
  rw [mem_without_order, h b]
  constructor
  · rintro ⟨hb, hno⟩
    by_contra hr
    exact hno ⟨hb, hr⟩
  · exact fun hr => ⟨hwf.mem_of_reaches hr, fun hno => hno.2 hr⟩

theorem Dead.represents (h : g.Dead dead) (hwf : g.WellFormed) {a r : BlockId}
    (ha : g.Reaches a) (hr : g.Represents a r) : (g.without dead).Represents a r := by
  obtain ⟨hl, hend⟩ := hr
  have hrr := ha.leads hl
  refine ⟨(h.leads_iff ha).mpr hl, ?_⟩
  rw [h.passTarget? hrr]
  refine hend.imp_right ?_
  rintro ⟨⟨t, ht, hback⟩, hlast⟩
  have htr : g.Reaches t := .edge hrr (passTarget?_mem_successors ht)
  refine ⟨⟨t, (h.passTarget? hrr).trans ht, (h.leads_iff htr).mpr hback⟩, ?_⟩
  intro c hc
  have hc' := (h.leads_iff hrr).mp hc
  exact (idxOf_filter_le ((h.mem_order hwf).mpr (hrr.leads hc'))
    ((h.mem_order hwf).mpr hrr)).mpr (hlast c hc')

theorem Dead.edited (h : g.Dead dead) (hwf : g.WellFormed) :
    Edited g (g.without dead) (fun b => b) where
  wellFormed := h.wellFormed hwf
  name := rfl
  cap := without_cap dead g
  nextValue := rfl
  entry := by simp [without]
  order := List.filter_sublist
  reaches b := by
    rw [h.reaches_iff hwf, h.mem_order hwf, and_self]
  rep b hr := by
    have hb := hwf.mem_of_reaches hr
    exact ((h.wellFormed hwf).rep_eq_iff ((h.mem_order hwf).mpr hr) _).mpr
      (h.represents hwf hr (hwf.represents_rep hb))
  keeps _ _ := rfl
  stays _ hr _ := (h.mem_order hwf).mpr hr
  block b hb := by
    rw [h.block? ((h.mem_order hwf).mp hb)]
    cases g.block? b with
    | none => rfl
    | some block => rw [Option.map_some, Block.retarget_self]
  removed := (cutTo_without fun b hb => ((h b).mp hb).1).removed
  others := (cutTo_without fun b hb => ((h b).mp hb).1).others

end Dead

/-! ## Where nothing remains to be done -/

/-- When no block can be taken out, a block that passes a run on passes it to itself. -/
theorem Settled.self_loop {g : Graph} (hs : g.Settled [] g.order) (hwf : g.WellFormed)
    {b t : BlockId} (hb : b ∈ g.order) (ht : g.passTarget? b = some t) : t = b :=
  hs.closes (Bypassing.nil g) hwf hb List.not_mem_nil ht

theorem Settled.rep_eq_self {g : Graph} (hs : g.Settled [] g.order) (hwf : g.WellFormed)
    {b : BlockId} (hb : b ∈ g.order) : g.rep b = b := by
  rw [hwf.rep_eq_iff hb]
  refine ⟨.refl b, ?_⟩
  cases ht : g.passTarget? b with
  | none => exact .inl rfl
  | some t =>
    have htb := hs.self_loop hwf hb ht
    subst htb
    -- a block that passes a run to itself is alone on its cycle
    refine .inr ⟨⟨t, ht, .refl t⟩, ?_⟩
    intro c hc
    have hstill : ∀ n, g.hop^[n] t = t := fun n => Function.iterate_fixed (by simp [hop, ht]) n
    obtain ⟨n, rfl⟩ := leads_iff.mp hc
    rw [hstill n]

/-- A graph on which neither pass finds anything to do is its own normal form. -/
theorem WellFormed.isNormalForm_self {g : Graph} (hwf : g.WellFormed)
    (hs : g.Settled [] g.order) (hall : ∀ b ∈ g.order, g.Reaches b) : g.IsNormalForm g where
  name := rfl
  cap := rfl
  nextValue := rfl
  entry := by
    obtain ⟨e, hem, he⟩ := hwf.entry
    rw [he, Option.map_some, hs.rep_eq_self hwf hem]
  order := List.Sublist.refl _
  live b := by
    constructor
    · exact fun hb => ⟨hall b hb, (hwf.rep_eq_self hb).mp (hs.rep_eq_self hwf hb)⟩
    · exact fun hr => hwf.mem_of_reaches hr.1
  block b hb := by
    obtain ⟨block, hblock, hfits⟩ := hwf.block b hb
    have hsame : block.retarget g.rep = block :=
      Block.retarget_eq_self fun i hi t ht => hs.rep_eq_self hwf (hfits.inside i hi t ht)
    rw [hblock, Option.map_some, hsame]
  removed b hb hout := absurd hb hout
  others _ _ := rfl

end Graph

/-! ## Every run that comes to an end -/

namespace Pipeline

/-- The passes are the registered ones, each at least once and in any order. -/
def HasRegistered (p : Pipeline Graph) : Prop := ∀ q, q ∈ p.passes ↔ q ∈ registeredPasses

theorem keeps_normalForm {p : Pipeline Graph} (hp : ∀ q ∈ p.passes, q ∈ registeredPasses)
    (g : Graph) :
    p.Keeps fun g' => g'.WellFormed ∧ ∀ n, g'.IsNormalForm n → g.IsNormalForm n := by
  apply keeps_registered hp
  · exact fun _ h => h.1
  · rintro g' gone f ⟨hwf, hback⟩ hlooked
    have he := hlooked.edited hwf
    exact ⟨he.wellFormed, fun n hn => hback n (he.isNormalForm hwf hn)⟩
  · rintro g' dead ⟨hwf, hback⟩ hdead
    have he := hdead.edited hwf
    exact ⟨he.wellFormed, fun n hn => hback n (he.isNormalForm hwf hn)⟩

/-- A graph that no registered pass changes is its own normal form. -/
theorem isNormalForm_of_settled {p : Pipeline Graph} (hp : p.HasRegistered) {g : Graph}
    (hwf : g.WellFormed) (hs : p.Settled g) : g.IsNormalForm g := by
  apply hwf.isNormalForm_self
  · have hc := hs emptyBlockElimination ((hp _).mpr (by simp [registeredPasses]))
    obtain ⟨gone, f, hlooked, -, hchanged, -⟩ := hwf.eliminateEmpty
    have hnil : gone = [] := by simpa using hchanged.symm.trans hc
    subst hnil
    exact hlooked.settled fun _ _ => List.not_mem_nil
  · have hc := hs unreachableBlockElimination ((hp _).mpr (by simp [registeredPasses]))
    obtain ⟨dead, -, hdead, -, hchanged, -⟩ := hwf.eliminateUnreachable
    have hnil : dead = [] := by simpa using hchanged.symm.trans hc
    subst hnil
    intro b hb
    by_contra hno
    exact List.not_mem_nil ((hdead b).mpr ⟨hb, hno⟩)

theorem isNormalForm_run {p : Pipeline Graph} (hp : p.HasRegistered) {g : Graph}
    (hwf : g.WellFormed) (hc : p.Converges g) : g.IsNormalForm (p.run g).state := by
  have hkeeps := keeps_normalForm (fun q hq => (hp q).mp hq) g
  have hstart : g.WellFormed ∧ ∀ n, g.IsNormalForm n → g.IsNormalForm n := ⟨hwf, fun _ h => h⟩
  obtain ⟨⟨hwf', hback⟩, -⟩ := hkeeps.run hstart
  obtain ⟨-, hsettled⟩ := hkeeps.settled hstart hc
  exact hback _ (isNormalForm_of_settled hp hwf' hsettled)

/-- A run of both passes that comes to an end leaves the normal form of the graph,
whatever the order of the passes. So all such runs leave the same. -/
theorem a_run_that_settles_leaves_the_normal_form (p : Pipeline Graph) (hp : p.HasRegistered)
    (g : Graph) (hg : g.fault? = none) (hc : p.Converges g) :
    (p.run g).error = none ∧
    g.IsNormalForm (p.run g).state ∧
    (∀ n, g.IsNormalForm n → n = (p.run g).state) ∧
    (∀ b ∈ g.order, ∀ r, g.rep b = r ↔ g.Represents b r) ∧
    ∀ q : Pipeline Graph, q.HasRegistered → q.Converges g → (q.run g).state = (p.run g).state := by
  have hwf := Graph.fault?_eq_none.mp hg
  have hnormal := isNormalForm_run hp hwf hc
  refine ⟨?_, hnormal, ?_, ?_, ?_⟩
  · have hkeeps := keeps_normalForm (fun q hq => (hp q).mp hq) g
    exact (hkeeps.settled ⟨hwf, fun _ h => h⟩ hc).1
  · exact fun n hn => hn.unique hwf.nodup hnormal
  · exact fun b hb r => hwf.rep_eq_iff hb r
  · exact fun q hq hqc => (isNormalForm_run hq hwf hqc).unique hwf.nodup hnormal

/-- A function that starts on a block that passes a run on, then goes round a cycle of
two blocks that do nothing or leaves, and has a block that it never comes to. -/
def spin : Graph where
  name := "spin"
  slots :=
    [some { id := 0, name := "start", code := [{ op := .br, args := [.block 1], id := 0, block := 0 }] },
     some { id := 1, name := "pick",
            code := [{ op := .arg, id := 1, block := 1 },
                     { op := .brif, args := [.value 1, .block 2, .block 4], id := 2, block := 1 }] },
     some { id := 2, name := "there", code := [{ op := .br, args := [.block 3], id := 3, block := 2 }] },
     some { id := 3, name := "back", code := [{ op := .br, args := [.block 2], id := 4, block := 3 }] },
     some { id := 4, name := "leave", code := [{ op := .ret, id := 5, block := 4 }] },
     some { id := 5, name := "lost", code := [{ op := .br, args := [.block 0], id := 6, block := 5 }] }]
  order := [0, 1, 2, 3, 4, 5]
  entry := some 0
  nextValue := 7

/-- Both passes, one of them twice. -/
def mixed : Pipeline Graph where
  passes := [unreachableBlockElimination, emptyBlockElimination, unreachableBlockElimination]
  maxRounds := 0
  onLimit := .emit
  verify := true

theorem a_run_on_spin_leaves_its_normal_form :
    spin.fault? = none ∧ mixed.HasRegistered ∧ mixed.Converges spin ∧
    spin.IsNormalForm (mixed.run spin).state ∧ (mixed.run spin).state.order = [1, 3, 4] ∧
    (mixed.run spin).state.entry = some 1 := by
  have hg : spin.fault? = none := by decide
  have hp : mixed.HasRegistered := by
    intro q
    simp only [mixed, registeredPasses, List.mem_cons, List.not_mem_nil, or_false]
    tauto
  have hc : mixed.Converges spin := by
    have hnone : ({ mixed with onLimit := .reject }.run spin).error = none := by decide
    intro name rounds
    rw [hnone]
    simp
  refine ⟨hg, hp, hc, ?_, by decide, by decide⟩
  exact (a_run_that_settles_leaves_the_normal_form mixed hp spin hg hc).2.1

end Pipeline

end FlowGraph

import FlowGraph.Pass.EmptyBlocks
import FlowGraph.Proofs.Edits
import FlowGraph.Proofs.Lists

/-!
The law of the elimination of blocks that only pass a run on. While it looks
at the blocks, the graph is the first one with every branch passed through one
map: the map follows the blocks to remove until it is past them. So no branch
leads to them at the end, and each is on a way that the map cuts short.

A block that passes a run on and stays was the last of its cycle to be looked
at, and the last block of a cycle is never removed.
-/

namespace FlowGraph

/-! ## Blocks that pass a run on -/

/-- The block that a block branches to, if it has no other instruction. -/
def Graph.passTarget? (g : Graph) (id : BlockId) : Option BlockId :=
  (g.block? id).bind fun b => b.soleBranch?.bind fun i => i.targets.head?

theorem Block.code_of_soleBranch? {b : Block} {i : Instr} (h : b.soleBranch? = some i) :
    b.code = [i] ∧ i.op = .br := by
  unfold Block.soleBranch? at h
  split at h
  · rename_i j hc
    split at h
    · rename_i hop
      cases h
      exact ⟨hc, hop⟩
    · cases h
  · cases h

theorem Block.targets_of_soleBranch? {b : Block} {i : Instr} (h : b.soleBranch? = some i) :
    b.targets = i.targets := by
  obtain ⟨hc, hop⟩ := Block.code_of_soleBranch? h
  have hterm : i.isTerminator = true := by
    simp [Action.isTerminator, Op.isTerminator, hop, Op.ending]
  have hc' : b.code = [] ++ [i] := hc
  exact Block.targets_eq hc' hterm

theorem Block.soleBranch?_retarget (f : BlockId → BlockId) (b : Block) :
    (b.retarget f).soleBranch? = b.soleBranch?.map (Instr.retarget f) := by
  unfold Block.soleBranch? Block.retarget
  match b.code with
  | [] => rfl
  | [i] =>
    simp only [List.map_cons, List.map_nil, Instr.retarget_op]
    by_cases hop : i.op = .br <;> simp [hop]
  | _ :: _ :: _ => rfl

theorem Block.FitsIn.soleBranch? {b : Block} {id : BlockId} {order : List BlockId} {i : Instr}
    (h : b.FitsIn id order) (hi : b.soleBranch? = some i) :
    ∃ t, i.targets = [t] ∧ t ∈ order := by
  obtain ⟨hc, hop⟩ := Block.code_of_soleBranch? hi
  have him : i ∈ b.code := by simp [hc]
  obtain ⟨t, ht⟩ := (h.fits i him).br_args hop
  have htargets : i.targets = [t] := by simp [Action.targets, ht, Operand.block?]
  exact ⟨t, htargets, h.inside i him t (by simp [htargets])⟩

namespace Graph

theorem passTarget?_eq_some {g : Graph} {id t : BlockId} :
    g.passTarget? id = some t ↔
      ∃ b i, g.block? id = some b ∧ b.soleBranch? = some i ∧ i.targets.head? = some t := by
  unfold passTarget?
  simp only [Option.bind_eq_some_iff]
  constructor
  · rintro ⟨b, hb, i, hi, ht⟩
    exact ⟨b, i, hb, hi, ht⟩
  · rintro ⟨b, i, hb, hi, ht⟩
    exact ⟨b, hb, i, hi, ht⟩

theorem WellFormed.passTarget?_inside {g : Graph} (h : g.WellFormed) {id t : BlockId}
    (hid : id ∈ g.order) (ht : g.passTarget? id = some t) : t ∈ g.order := by
  obtain ⟨b, i, hb, hi, hh⟩ := passTarget?_eq_some.mp ht
  obtain ⟨u, hu, hmem⟩ := (h.block_of_mem hid hb).soleBranch? hi
  rw [hu] at hh
  cases hh
  exact hmem

theorem passTarget?_mem_successors {g : Graph} {id t : BlockId}
    (ht : g.passTarget? id = some t) : t ∈ g.successors id := by
  obtain ⟨b, i, hb, hi, hh⟩ := passTarget?_eq_some.mp ht
  rw [successors_eq hb, Block.targets_of_soleBranch? hi]
  exact List.mem_of_head? hh

/-! ## Following branches -/

/-- A walk over blocks that pass a run on. Each block it leaves has the property `p`. -/
inductive Follows (g : Graph) (p : BlockId → Prop) : BlockId → BlockId → Prop
  | refl (a : BlockId) : Follows g p a a
  | hop {a t c : BlockId} : p a → g.passTarget? a = some t → Follows g p t c → Follows g p a c

theorem Follows.mono {g : Graph} {p q : BlockId → Prop} (hpq : ∀ b, p b → q b) {a c : BlockId}
    (h : g.Follows p a c) : g.Follows q a c := by
  induction h with
  | refl a => exact .refl a
  | hop hp ht _ ih => exact .hop (hpq _ hp) ht ih

theorem Follows.trans {g : Graph} {p : BlockId → Prop} {a b c : BlockId}
    (h : g.Follows p a b) (h' : g.Follows p b c) : g.Follows p a c := by
  induction h with
  | refl a => exact h'
  | hop hp ht _ ih => exact .hop hp ht (ih h')

theorem Follows.inside {g : Graph} (hwf : g.WellFormed) {p : BlockId → Prop} {a c : BlockId}
    (h : g.Follows p a c) (ha : a ∈ g.order) : c ∈ g.order := by
  induction h with
  | refl a => exact ha
  | hop _ ht _ ih => exact ih (hwf.passTarget?_inside ha ht)

/-- Two walks that end outside of `p` end at the same block. -/
theorem Follows.unique {g : Graph} {p : BlockId → Prop} {a c d : BlockId}
    (h : g.Follows p a c) (hc : ¬ p c) (h' : g.Follows p a d) (hd : ¬ p d) : c = d := by
  induction h with
  | refl a =>
    cases h' with
    | refl => rfl
    | hop hp _ _ => exact absurd hp hc
  | hop hp ht _ ih =>
    cases h' with
    | refl => exact absurd hp hd
    | hop _ ht' hrest =>
      rw [ht] at ht'
      cases ht'
      exact ih hc hrest

/-- A block on the way from `a` is on every walk from `a`, unless the walk ends before it. -/
theorem Follows.meets {g : Graph} {p : BlockId → Prop} {a c d : BlockId}
    (h : g.Follows (fun _ => True) a d) (h' : g.Follows p a c) :
    p d ∨ g.Follows (fun _ => True) c d := by
  induction h' with
  | refl a => exact .inr h
  | hop hp ht _ ih =>
    cases h with
    | refl => exact .inl hp
    | hop _ ht' hrest =>
      rw [ht] at ht'
      cases ht'
      exact ih hrest

/-- A block leads to another by branches of blocks that pass a run on. -/
def Leads (g : Graph) : BlockId → BlockId → Prop := g.Follows (fun _ => True)

/-- The block is on a cycle of blocks that pass a run on, and none of them comes
after it in the order. -/
def LastOnCycle (g : Graph) (b : BlockId) : Prop :=
  (∃ t, g.passTarget? b = some t ∧ g.Leads t b) ∧
    ∀ c, g.Leads b c → g.order.idxOf c ≤ g.order.idxOf b

/-! ## The map while the elimination looks -/

/-- The map `f` follows the blocks of `gone` until it is past them, and keeps the rest. -/
structure Bypassing (g : Graph) (gone : List BlockId) (f : BlockId → BlockId) : Prop where
  nodup : gone.Nodup
  listed : ∀ b ∈ gone, b ∈ g.order
  keeps : ∀ b, b ∉ gone → f b = b
  lands : ∀ b, f b ∉ gone
  follows : ∀ b, g.Follows (· ∈ gone) b (f b)

theorem Bypassing.nil (g : Graph) : g.Bypassing [] (fun b => b) :=
  ⟨List.nodup_nil, by simp, by simp, by simp, fun b => .refl b⟩

theorem Bypassing.inside {g : Graph} (hwf : g.WellFormed) {gone : List BlockId}
    {f : BlockId → BlockId} (h : g.Bypassing gone f) : ∀ b ∈ g.order, f b ∈ g.order :=
  fun b hb => (h.follows b).inside hwf hb

/-- The map takes a removed block where it takes the target of the block. -/
theorem Bypassing.gone_eq {g : Graph} {gone : List BlockId} {f : BlockId → BlockId}
    (h : g.Bypassing gone f) {b : BlockId} (hb : b ∈ gone) :
    ∃ t, g.passTarget? b = some t ∧ f b = f t := by
  have hlands := h.lands b
  have hfollows := h.follows b
  generalize hc : f b = c at *
  cases hfollows with
  | refl => exact absurd hb hlands
  | hop _ ht hrest => exact ⟨_, ht, hrest.unique hlands (h.follows _) (h.lands _)⟩

/-- Taking out one more block that passes a run on to somewhere else. -/
theorem Bypassing.take {g : Graph} {gone : List BlockId} {f : BlockId → BlockId}
    (h : g.Bypassing gone f) {b t : BlockId} (hb : b ∉ gone) (hl : b ∈ g.order)
    (ht : g.passTarget? b = some t) (hne : f t ≠ b) :
    g.Bypassing (gone ++ [b]) (divert b (f t) ∘ f) := by
  have hmono : ∀ x, x ∈ gone → x ∈ gone ++ [b] := fun x hx => List.mem_append_left _ hx
  -- only what the map took to `b` is taken elsewhere: to where it takes the target of `b`
  refine ⟨?_, ?_, ?_, ?_, ?_⟩
  · rw [List.nodup_append]
    refine ⟨h.nodup, List.nodup_singleton b, ?_⟩
    rintro x hx y hy rfl
    rw [List.mem_singleton] at hy
    exact hb (hy ▸ hx)
  · intro x hx
    rcases List.mem_append.mp hx with hx | hx
    · exact h.listed x hx
    · rw [List.mem_singleton] at hx
      exact hx ▸ hl
  · intro x hx
    rw [List.mem_append, List.mem_singleton, not_or] at hx
    simp [divert, h.keeps x hx.1, hx.2]
  · intro x hx
    rw [List.mem_append, List.mem_singleton] at hx
    by_cases hfx : f x = b
    · simp only [Function.comp, divert, hfx, if_true] at hx
      rcases hx with hx | hx
      · exact h.lands t hx
      · exact hne hx
    · simp only [Function.comp, divert, hfx, if_false] at hx
      rcases hx with hx | hx
      · exact h.lands x hx
      · exact hx
  · intro x
    have hx : g.Follows (· ∈ gone ++ [b]) x (f x) := (h.follows x).mono hmono
    by_cases hfx : f x = b
    · simp only [Function.comp, divert, hfx, if_true]
      rw [hfx] at hx
      exact hx.trans (.hop (by simp) ht ((h.follows t).mono hmono))
    · simpa only [Function.comp, divert, hfx, if_false] using hx

/-- What is known of the blocks looked at so far, when those are the first ones of
the order: one that passes a run on and stays closes a cycle of earlier blocks. -/
def Settled (g : Graph) (gone seen : List BlockId) : Prop :=
  ∀ c ∈ seen, c ∉ gone → ∀ t, g.passTarget? c = some t →
    g.Follows (fun x => g.order.idxOf x < g.order.idxOf c) t c

/-- Where walks over a cycle back to `c` can be: on the way to `c` still. -/
theorem Follows.round {g : Graph} {p : BlockId → Prop} {c a d : BlockId}
    (hc : ∀ t, g.passTarget? c = some t → g.Follows p t c) (h : g.Follows p a c)
    (hd : g.Leads a d) : g.Follows p d c := by
  induction hd with
  | refl a => exact h
  | hop _ ht _ ih =>
    cases h with
    | refl => exact ih (hc _ ht)
    | hop _ ht' hrest =>
      rw [ht] at ht'
      cases ht'
      exact ih hrest

/-- A block that stays and passes a run on gets it back: the way on from it ends at it. -/
theorem Settled.closes {g : Graph} {gone : List BlockId} {f : BlockId → BlockId}
    (hs : g.Settled gone g.order) (h : g.Bypassing gone f) (hwf : g.WellFormed) {c t : BlockId}
    (hc : c ∈ g.order) (hcg : c ∉ gone) (ht : g.passTarget? c = some t) : f t = c := by
  by_contra hne
  have hround := hs c hc hcg
  have hway := h.follows t
  have hto : g.Leads t (f t) := hway.mono fun _ _ => trivial
  have hback : g.Leads (f t) c := by
    rcases Follows.meets ((hround t ht).mono fun _ _ => trivial) hway with hg | hl
    · exact absurd hg hcg
    · exact hl
  -- were the end of the way another block, both would close the cycle that they are on,
  -- and each would come before the other
  have hend := hs (f t) (h.inside hwf t (hwf.passTarget?_inside hc ht)) (h.lands t)
  cases Follows.round hround (hround t ht) hto with
  | refl => exact hne rfl
  | hop hlt _ _ =>
    cases Follows.round hend (.refl _) hback with
    | refl => exact hne rfl
    | hop hlt' _ _ => omega

/-- What holds when the blocks of `seen` were looked at. -/
structure Looking (g : Graph) (seen gone : List BlockId) (f : BlockId → BlockId) : Prop where
  bypassing : g.Bypassing gone f
  early : ∀ b ∈ gone, b ∈ seen
  settled : g.Settled gone seen
  last_stays : ∀ b ∈ gone, ¬ g.LastOnCycle b

theorem Looking.nil (g : Graph) : g.Looking [] [] (fun b => b) := by
  refine ⟨Bypassing.nil g, by simp, ?_, by simp⟩
  intro c hc
  cases hc

theorem Looking.skip {g : Graph} {seen rest gone : List BlockId} {f : BlockId → BlockId}
    {b : BlockId} (hn : g.order.Nodup) (ho : g.order = seen ++ b :: rest)
    (h : g.Looking seen gone f) (hb : ∀ t, g.passTarget? b = some t → f t = b) :
    g.Looking (seen ++ [b]) gone f := by
  refine ⟨h.bypassing, fun x hx => List.mem_append_left _ (h.early x hx), ?_, h.last_stays⟩
  intro c hc hcg t ht
  rcases List.mem_append.mp hc with hc | hc
  · exact h.settled c hc hcg t ht
  · rw [List.mem_singleton] at hc
    subst hc
    have hf := h.bypassing.follows t
    rw [hb t ht] at hf
    refine hf.mono ?_
    intro x hx
    rw [ho] at hn ⊢
    exact idxOf_lt_of_mem hn (h.early x hx)

/-- The block that is looked at is not the last one of a cycle, if the way from it
ends at another block: that block would have been removed before. -/
theorem Looking.not_last {g : Graph} {seen rest gone : List BlockId} {f : BlockId → BlockId}
    {b t : BlockId} (hwf : g.WellFormed) (ho : g.order = seen ++ b :: rest)
    (h : g.Looking seen gone f) (ht : g.passTarget? b = some t) (hne : f t ≠ b) :
    ¬ g.LastOnCycle b := by
  rintro ⟨⟨t', ht', hback⟩, hlast⟩
  rw [ht] at ht'
  cases ht'
  have hn := hwf.nodup
  rw [ho] at hn
  have hway := h.bypassing.follows t
  have hto : g.Leads b (f t) := .hop trivial ht (hway.mono (fun _ _ => trivial))
  have hcs : f t ∈ seen := by
    have hle := hlast (f t) hto
    rw [ho] at hle
    exact mem_of_idxOf_le hne hle
  have hcb : g.Leads (f t) b := by
    rcases Follows.meets hback hway with hg | hl
    · exact absurd (h.early b hg) (notMem_of_nodup_append_cons hn)
    · exact hl
  -- the block where the way ends closes a cycle of blocks before it, and `b` is on it
  have hclose : ∀ u, g.passTarget? (f t) = some u →
      g.Follows (fun x => g.order.idxOf x < g.order.idxOf (f t)) u (f t) :=
    h.settled (f t) hcs (h.bypassing.lands t)
  cases Follows.round hclose (.refl _) hcb with
  | refl => exact hne rfl
  | hop hlt _ _ =>
    rw [ho] at hlt
    have := idxOf_lt_of_mem hn hcs
    omega

theorem Looking.take {g : Graph} {seen rest gone : List BlockId} {f : BlockId → BlockId}
    {b t : BlockId} (hwf : g.WellFormed) (ho : g.order = seen ++ b :: rest)
    (h : g.Looking seen gone f) (ht : g.passTarget? b = some t) (hne : f t ≠ b) :
    g.Looking (seen ++ [b]) (gone ++ [b]) (divert b (f t) ∘ f) := by
  have hn := hwf.nodup
  rw [ho] at hn
  have hbs : b ∉ seen := notMem_of_nodup_append_cons hn
  refine ⟨?_, ?_, ?_, ?_⟩
  · exact h.bypassing.take (fun hb => hbs (h.early b hb)) (by simp [ho]) ht hne
  · intro x hx
    rcases List.mem_append.mp hx with hx | hx
    · exact List.mem_append_left _ (h.early x hx)
    · exact List.mem_append_right _ hx
  · intro c hc hcg u hu
    rw [List.mem_append, not_or] at hcg
    rcases List.mem_append.mp hc with hc | hc
    · exact h.settled c hc hcg.1 u hu
    · exact absurd hc hcg.2
  · intro x hx
    rcases List.mem_append.mp hx with hx | hx
    · exact h.last_stays x hx
    · rw [List.mem_singleton] at hx
      subst hx
      exact h.not_last hwf ho ht hne

/-! ## The look at all blocks -/

/-- The graph with its branches passed through a map and its entry moved by it. -/
def moved (f : BlockId → BlockId) (g : Graph) : Graph :=
  { g.retarget f with entry := g.entry.map f }

theorem block?_moved (f : BlockId → BlockId) (g : Graph) (id : BlockId) :
    (g.moved f).block? id =
      if id ∈ g.order then (g.block? id).map (Block.retarget f) else g.block? id :=
  block?_retarget f g id

theorem moved_eq_retarget {g : Graph} {f : BlockId → BlockId}
    (he : ∀ e, g.entry = some e → f e = e) : g.moved f = g.retarget f := by
  have hentry : g.entry.map f = g.entry := by
    cases hg : g.entry with
    | none => rfl
    | some e => rw [Option.map_some, he e hg]
  unfold moved
  rw [hentry]
  rfl

theorem WellFormed.moved {g : Graph} (h : g.WellFormed) {f : BlockId → BlockId}
    (hf : ∀ t ∈ g.order, f t ∈ g.order) : (g.moved f).WellFormed := by
  obtain ⟨e, hem, hee⟩ := h.entry
  have hw := (h.retarget hf).setEntry (hf e hem)
  unfold Graph.moved
  rw [hee]
  exact hw

/-- What the look at one block does, in a graph that was passed through a map. -/
theorem WellFormed.passTarget?_retarget {g : Graph} (h : g.WellFormed) {id : BlockId}
    (hid : id ∈ g.order) (f : BlockId → BlockId) :
    ∃ b, (g.retarget f).block? id = some b ∧ b.id = id ∧
      (g.passTarget? id = none → b.soleBranch? = none) ∧
      ∀ t, g.passTarget? id = some t → ∃ i, b.soleBranch? = some i ∧ i.targets = [f t] := by
  obtain ⟨b, hb, hfits⟩ := h.block id hid
  refine ⟨b.retarget f, by simp [block?_retarget, hid, hb], hfits.id_eq, ?_, ?_⟩
  · intro hnone
    rw [Block.soleBranch?_retarget]
    cases hi : b.soleBranch? with
    | none => rfl
    | some i =>
      obtain ⟨t, ht, -⟩ := hfits.soleBranch? hi
      simp [passTarget?, hb, hi, ht] at hnone
  · intro t ht
    obtain ⟨b', i, hb', hi, hh⟩ := passTarget?_eq_some.mp ht
    rw [hb] at hb'
    cases hb'
    obtain ⟨u, hu, -⟩ := hfits.soleBranch? hi
    rw [hu] at hh
    cases hh
    exact ⟨i.retarget f, by rw [Block.soleBranch?_retarget, hi]; rfl,
      by rw [Instr.retarget_targets, hu]; rfl⟩

/-- What the look at all blocks comes to. -/
structure Looked (g : Graph) (gone : List BlockId) (f : BlockId → BlockId) : Prop where
  bypassing : g.Bypassing gone f
  last_stays : ∀ b ∈ gone, ¬ g.LastOnCycle b
  -- the look ends early only at the entry
  settled : (∀ e, g.entry = some e → e ∉ gone) → g.Settled gone g.order

/-- Taking a block redirects what leads to it, and moves the entry if it is the entry. -/
theorem take_spec {g : Graph} (hwf : g.WellFormed) {gone : List BlockId} {f : BlockId → BlockId}
    (hf : ∀ t ∈ g.order, f t ∈ g.order) {b : Block} {t : BlockId} (ht : t ∈ g.order) :
    Bypass.take { graph := g.retarget f, removed := gone } b t =
      if g.entry = some b.id then
        .ok ({ graph := { g.retarget (divert b.id t ∘ f) with entry := some t }
               removed := gone ++ [b.id] }, false)
      else .ok ({ graph := g.retarget (divert b.id t ∘ f), removed := gone ++ [b.id] }, true) := by
  have hw : (g.retarget f).WellFormed := hwf.retarget hf
  have hlive : (g.retarget (divert b.id t ∘ f)).has t = true := by
    obtain ⟨blk, hblk, -⟩ := hwf.block t ht
    rw [has_iff, block?_retarget, if_pos ht, hblk]
    exact ⟨_, rfl⟩
  unfold Bypass.take
  simp only [hw.redirect_eq, retarget_retarget]
  have hentry : (g.retarget (divert b.id t ∘ f)).entry = g.entry := rfl
  rw [hentry]
  split
  · unfold Graph.setEntry
    rw [if_pos hlive]
  · rfl

theorem scan_spec {g : Graph} (hwf : g.WellFormed) (rest seen gone : List BlockId)
    (f : BlockId → BlockId) (ho : g.order = seen ++ rest) (h : g.Looking seen gone f)
    (he : ∀ e, g.entry = some e → e ∉ gone) :
    ∃ gone' f', Bypass.scan { graph := g.retarget f, removed := gone } rest =
      .ok { graph := g.moved f', removed := gone' } ∧ g.Looked gone' f' := by
  -- on the blocks still to look at: the graph is the first one passed through the map so far
  induction rest generalizing seen gone f with
  | nil =>
    rw [List.append_nil] at ho
    refine ⟨gone, f, ?_, h.bypassing, h.last_stays, fun _ => ho ▸ h.settled⟩
    rw [moved_eq_retarget (fun e hee => h.bypassing.keeps e (he e hee))]
    rfl
  | cons id rest ih =>
    have hid : id ∈ g.order := by simp [ho]
    have ho' : g.order = (seen ++ [id]) ++ rest := by simp [ho]
    obtain ⟨b, hb, hbid, hnone, hsome⟩ := hwf.passTarget?_retarget hid f
    unfold Bypass.scan
    simp only [hb]
    cases ht : g.passTarget? id with
    | none =>
      simp only [hnone ht]
      exact ih _ _ _ ho' (h.skip hwf.nodup ho (by simp [ht])) he
    | some t =>
      obtain ⟨i, hi, hit⟩ := hsome t ht
      simp only [hi, hit, hbid]
      by_cases hself : f t = id
      · rw [if_pos hself]
        refine ih _ _ _ ho' (h.skip hwf.nodup ho ?_) he
        intro u hu
        rw [ht] at hu
        cases hu
        exact hself
      · rw [if_neg hself]
        have hl := h.take hwf ho ht hself
        have hin : f t ∈ g.order := h.bypassing.inside hwf t (hwf.passTarget?_inside hid ht)
        rw [take_spec hwf (h.bypassing.inside hwf) hin, hbid]
        by_cases hentry : g.entry = some id
        · -- the entry was taken: the look ends here
          simp only [if_pos hentry]
          refine ⟨gone ++ [id], divert id (f t) ∘ f, ?_, hl.bypassing, hl.last_stays, ?_⟩
          · have hid' : f id = id := h.bypassing.keeps id (he id hentry)
            unfold Graph.moved
            simp [hentry, hid', divert]
          · intro hout
            exact absurd (List.mem_append_right _ (List.mem_singleton_self id)) (hout id hentry)
        · simp only [if_neg hentry]
          refine ih _ _ _ ho' hl ?_
          intro e hee hmem
          rcases List.mem_append.mp hmem with hmem | hmem
          · exact he e hee hmem
          · rw [List.mem_singleton] at hmem
            exact hentry (hmem ▸ hee)

/-! ## The elimination -/

/-- The graph after the blocks of `gone` were bypassed by the map `f`. -/
def bypassed (gone : List BlockId) (f : BlockId → BlockId) (g : Graph) : Graph :=
  (g.moved f).without gone

/-- Once the look is over, the blocks that it took are all removed. -/
theorem WellFormed.eliminateEmpty_of_scan {g : Graph} (h : g.WellFormed) {gone : List BlockId}
    {f : BlockId → BlockId}
    (hscan : Bypass.scan { graph := g } g.order = .ok { graph := g.moved f, removed := gone })
    (hb : g.Bypassing gone f) :
    g.eliminateEmpty.state = g.bypassed gone f ∧
      g.eliminateEmpty.changed = !gone.isEmpty ∧ g.eliminateEmpty.error = none := by
  have hf := hb.inside h
  have hw : (g.moved f).WellFormed := h.moved hf
  obtain ⟨e, hem, hee⟩ := h.entry
  -- every branch was passed through the map, and the map lands on no removed block
  have hrefs : ∀ i ∈ (g.moved f).instrs, ∀ t ∈ i.targets, t ∉ gone := by
    intro i hi t ht
    obtain ⟨id, hid, b, hb', hib⟩ := mem_instrs.mp hi
    have hid : id ∈ g.order := hid
    rw [block?_moved, if_pos hid] at hb'
    obtain ⟨b', -, rfl⟩ := Option.map_eq_some_iff.mp hb'
    obtain ⟨j, -, rfl⟩ := List.mem_map.mp hib
    rw [Instr.retarget_targets] at ht
    obtain ⟨u, -, rfl⟩ := List.mem_map.mp ht
    exact hb.lands u
  obtain ⟨hgraph, hrefused⟩ := removeAll_eq gone (g := g.moved f) (e := f e) h.nodup
    hb.nodup (by
      intro b hbg
      obtain ⟨blk, hblk, -⟩ := hw.block b (hb.listed b hbg)
      exact ⟨hb.listed b hbg, has_iff.mpr ⟨blk, hblk⟩⟩)
    (by simp [Graph.moved, hee]) (hf e hem) (hb.lands e) hrefs
  unfold Graph.eliminateEmpty
  simp only [h.malformedBlock?, hscan]
  unfold Removal.result
  rw [hrefused]
  exact ⟨hgraph, rfl, rfl⟩

/-- One call takes out blocks that pass a run on, and leads all branches past them. -/
theorem WellFormed.eliminateEmpty {g : Graph} (h : g.WellFormed) :
    ∃ gone f, g.Looked gone f ∧ g.eliminateEmpty.state = g.bypassed gone f ∧
      g.eliminateEmpty.changed = !gone.isEmpty ∧ g.eliminateEmpty.error = none := by
  obtain ⟨gone, f, hscan, hl⟩ := scan_spec h g.order [] [] _ rfl (Looking.nil g) (by simp)
  rw [retarget_self] at hscan
  exact ⟨gone, f, hl, h.eliminateEmpty_of_scan hscan hl.bypassing⟩

theorem WellFormed.successors_moved {g : Graph} (h : g.WellFormed) (f : BlockId → BlockId)
    {id : BlockId} (hid : id ∈ g.order) :
    (g.moved f).successors id = (g.successors id).map f := by
  obtain ⟨b, hb, hfits⟩ := h.block id hid
  have hb' : (g.moved f).block? id = some (b.retarget f) := by
    rw [block?_moved, if_pos hid, hb]
    rfl
  rw [successors_eq hb, successors_eq hb', Block.retarget_targets hfits.ends]

theorem Bypassing.wellFormed {g : Graph} (hwf : g.WellFormed) {gone : List BlockId}
    {f : BlockId → BlockId} (h : g.Bypassing gone f) : (g.bypassed gone f).WellFormed := by
  apply (hwf.moved (h.inside hwf)).without
  · intro e he
    obtain ⟨e', -, rfl⟩ := Option.map_eq_some_iff.mp he
    exact h.lands e'
  · intro id hid _ t ht
    rw [hwf.successors_moved f hid] at ht
    obtain ⟨u, -, rfl⟩ := List.mem_map.mp ht
    exact h.lands u

theorem block?_bypassed {g : Graph} {gone : List BlockId} (f : BlockId → BlockId) {id : BlockId}
    (hid : id ∈ g.order) (hout : id ∉ gone) :
    (g.bypassed gone f).block? id = (g.block? id).map (Block.retarget f) := by
  unfold bypassed
  rw [block?_without, if_neg hout, block?_moved, if_pos hid]

end Graph

end FlowGraph

import FlowGraph.Proofs.Bypass
import Mathlib.Data.Finset.Card
import Mathlib.Dynamics.PeriodicPts.Defs

/-!
Where a branch ends up in the end. Following blocks that pass a run on, a walk
comes to a block that does something else, or it goes round a cycle. The
representative of a block is that block, or the last block of the cycle in the
order of the graph. Every listed block has one representative.
-/

namespace FlowGraph.Graph

/-- One hop, or none from a block that does not pass a run on. -/
def hop (g : Graph) (b : BlockId) : BlockId := (g.passTarget? b).getD b

/-- The blocks that a walk goes over from a block, up to as many as there are. -/
def orbit (g : Graph) (b : BlockId) : List BlockId :=
  (List.range g.order.length).map (fun n => g.hop^[n] b)

/-- The representative of a block. After as many hops as there are blocks the walk
stands still or is on a cycle, and then the last block that it goes over is taken. -/
def rep (g : Graph) (b : BlockId) : BlockId :=
  ((g.order.filter (· ∈ g.orbit (g.hop^[g.order.length] b))).getLast?).getD b

/-- A block leads to `r`, and `r` does not pass a run on or is the last on its cycle. -/
def Represents (g : Graph) (b r : BlockId) : Prop :=
  g.Leads b r ∧ (g.passTarget? r = none ∨ g.LastOnCycle r)

/-! ## Walks -/

theorem leads_iff {g : Graph} {a c : BlockId} : g.Leads a c ↔ ∃ n, g.hop^[n] a = c := by
  constructor
  · intro h
    induction h with
    | refl a => exact ⟨0, rfl⟩
    | @hop a t c _ ht _ ih =>
      obtain ⟨n, hn⟩ := ih
      refine ⟨n + 1, ?_⟩
      have hat : g.hop a = t := by simp [hop, ht]
      rw [Function.iterate_succ_apply, hat]
      exact hn
  · rintro ⟨n, hn⟩
    induction n generalizing a with
    | zero => exact hn ▸ .refl a
    | succ n ih =>
      rw [Function.iterate_succ_apply] at hn
      cases ht : g.passTarget? a with
      | none =>
        have haa : g.hop a = a := by simp [hop, ht]
        rw [haa] at hn
        exact ih hn
      | some t =>
        have hat : g.hop a = t := by simp [hop, ht]
        rw [hat] at hn
        exact .hop trivial ht (ih hn)

theorem Leads.stays {g : Graph} {a c : BlockId} (h : g.Leads a c) (ha : g.passTarget? a = none) :
    c = a := by
  cases h with
  | refl => rfl
  | hop _ ht _ =>
    rw [ha] at ht
    cases ht

/-- Of two blocks that a block leads to, one leads to the other. -/
theorem Leads.linear {g : Graph} {a c d : BlockId} (hc : g.Leads a c) (hd : g.Leads a d) :
    g.Leads c d ∨ g.Leads d c := by
  induction hc with
  | refl a => exact .inl hd
  | @hop a t c _ ht hrest ih =>
    cases hd with
    | refl => exact .inr (.hop trivial ht hrest)
    | hop _ ht' hrest' =>
      rw [ht] at ht'
      cases ht'
      exact ih hrest'

theorem LastOnCycle.back {g : Graph} {b c : BlockId} (h : g.LastOnCycle b) (hc : g.Leads b c) :
    g.Leads c b := by
  obtain ⟨⟨t, ht, hback⟩, -⟩ := h
  refine Follows.round ?_ (.refl b) hc
  intro u hu
  rw [ht] at hu
  cases hu
  exact hback

/-! ## One representative -/

/-- A block that is represented by itself leads to no other such block. -/
theorem Represents.eq_of_leads {g : Graph} {a r r' : BlockId} (hr : g.Represents a r)
    (hr' : g.Represents a r') (hmem : r ∈ g.order) (hl : g.Leads r r') : r = r' := by
  rcases hr.2 with hend | hlast
  · exact (hl.stays hend).symm
  · have hback := hlast.back hl
    rcases hr'.2 with hend' | hlast'
    · exact hback.stays hend'
    · have h1 := hlast.2 r' hl
      have h2 := hlast'.2 r hback
      exact (List.idxOf_inj hmem).mp (by omega)

theorem Represents.unique {g : Graph} (hwf : g.WellFormed) {a r r' : BlockId} (ha : a ∈ g.order)
    (hr : g.Represents a r) (hr' : g.Represents a r') : r = r' := by
  rcases hr.1.linear hr'.1 with hl | hl
  · exact hr.eq_of_leads hr' (hr.1.inside hwf ha) hl
  · exact (hr'.eq_of_leads hr (hr'.1.inside hwf ha) hl).symm

/-! ## The representative is one -/

theorem WellFormed.iterate_hop_mem {g : Graph} (h : g.WellFormed) {b : BlockId} (hb : b ∈ g.order)
    (n : Nat) : g.hop^[n] b ∈ g.order :=
  (leads_iff.mpr ⟨n, rfl⟩ : g.Leads b _).inside h hb

/-- After as many hops as there are blocks, a walk comes back to where it is. -/
theorem WellFormed.comes_back {g : Graph} (h : g.WellFormed) {b : BlockId} (hb : b ∈ g.order) :
    ∃ p, 0 < p ∧ p ≤ g.order.length ∧
      Function.IsPeriodicPt g.hop p (g.hop^[g.order.length] b) := by
  -- one more place on the walk than there are blocks, so two of them are the same
  have hcard : g.order.toFinset.card < (Finset.range (g.order.length + 1)).card := by
    rw [Finset.card_range, List.toFinset_card_of_nodup h.nodup]
    omega
  obtain ⟨i, hi, j, hj, hne, hsame⟩ := Finset.exists_ne_map_eq_of_card_lt_of_maps_to
    (f := fun n => g.hop^[n] b) hcard (fun n _ => by simpa using h.iterate_hop_mem hb n)
  wlog hij : i < j generalizing i j
  · exact this j hj i hi hne.symm hsame.symm (by omega)
  rw [Finset.mem_range] at hi hj
  refine ⟨j - i, by omega, by omega, ?_⟩
  have hback : Function.IsPeriodicPt g.hop (j - i) (g.hop^[i] b) := by
    show g.hop^[j - i] (g.hop^[i] b) = g.hop^[i] b
    rw [← Function.iterate_add_apply, Nat.sub_add_cancel (by omega)]
    exact hsame.symm
  have hlater := hback.apply_iterate (g.order.length - i)
  rwa [← Function.iterate_add_apply, Nat.sub_add_cancel (by omega)] at hlater

theorem mem_orbit {g : Graph} {a c : BlockId} {p : Nat} (hp : 0 < p) (hle : p ≤ g.order.length)
    (hback : Function.IsPeriodicPt g.hop p a) : c ∈ g.orbit a ↔ g.Leads a c := by
  unfold orbit
  rw [leads_iff, List.mem_map]
  constructor
  · rintro ⟨n, -, hn⟩
    exact ⟨n, hn⟩
  · rintro ⟨n, hn⟩
    refine ⟨n % p, ?_, ?_⟩
    · have := Nat.mod_lt n hp
      rw [List.mem_range]
      omega
    · rw [hback.iterate_mod_apply]
      exact hn

theorem WellFormed.represents_rep {g : Graph} (h : g.WellFormed) {b : BlockId}
    (hb : b ∈ g.order) : g.Represents b (g.rep b) := by
  obtain ⟨p, hp, hle, hback⟩ := h.comes_back hb
  have hmem := h.iterate_hop_mem hb g.order.length
  have hto : g.Leads b (g.hop^[g.order.length] b) := leads_iff.mpr ⟨_, rfl⟩
  unfold rep
  generalize g.hop^[g.order.length] b = a at *
  have horbit : ∀ c, c ∈ g.order.filter (· ∈ g.orbit a) ↔ c ∈ g.order ∧ g.Leads a c := by
    intro c
    rw [List.mem_filter, decide_eq_true_iff, mem_orbit hp hle hback]
  have hsome : (g.order.filter (· ∈ g.orbit a)).getLast?.isSome := by
    rw [List.getLast?_isSome]
    exact List.ne_nil_of_mem ((horbit a).mpr ⟨hmem, .refl a⟩)
  obtain ⟨r, hr⟩ := Option.isSome_iff_exists.mp hsome
  rw [hr, Option.getD_some]
  obtain ⟨hro, hl⟩ := (horbit r).mp (List.mem_of_getLast? hr)
  refine ⟨hto.trans hl, ?_⟩
  cases ht : g.passTarget? r with
  | none => exact .inl rfl
  | some t =>
    refine .inr ⟨⟨t, ht, ?_⟩, ?_⟩
    · -- the walk comes back to `r`, and `t` is its next place
      obtain ⟨n, hn⟩ := leads_iff.mp hl
      have hround : Function.IsPeriodicPt g.hop p r := hn ▸ hback.apply_iterate n
      have hnext : g.hop r = t := by simp [hop, ht]
      refine leads_iff.mpr ⟨p - 1, ?_⟩
      rw [← hnext, ← Function.iterate_succ_apply, Nat.succ_eq_add_one, Nat.sub_add_cancel hp]
      exact hround
    · intro c hc
      have hcf := (horbit c).mpr ⟨hc.inside h hro, hl.trans hc⟩
      exact (idxOf_filter_le hcf (List.mem_of_getLast? hr)).mp
        (idxOf_le_of_getLast? (h.nodup.filter _) hr hcf)

/-- The representative is the only block that represents a listed block. -/
theorem WellFormed.rep_eq_iff {g : Graph} (h : g.WellFormed) {b : BlockId} (hb : b ∈ g.order)
    (r : BlockId) : g.rep b = r ↔ g.Represents b r := by
  have hrep := h.represents_rep hb
  exact ⟨fun he => he ▸ hrep, fun hr => hrep.unique h hb hr⟩

end FlowGraph.Graph

import FlowGraph.Llvm.Order
import FlowGraph.Proofs.Reach

/-!
The order of lowering is that of a depth-first search. The search is said here
by its rules, and what is true of every such search is shown from them. The
order does not change when branches are led past blocks: what is left of it is
the order of the blocks that are left.
-/

namespace FlowGraph

/-- A depth-first search over starts in a row, when some members are seen already. What it
leaves last comes first. -/
inductive Visits {α : Type} (next : α → List α) : List α → List α → List α → Prop
  | done (seen : List α) : Visits next seen [] []
  | again {seen : List α} {a : α} {ts l : List α} : a ∈ seen → Visits next seen ts l →
      Visits next seen (a :: ts) l
  | visit {seen : List α} {a : α} {ts inner l : List α} : a ∉ seen →
      Visits next (a :: seen) (next a) inner → Visits next (a :: inner ++ seen) ts l →
      Visits next seen (a :: ts) (l ++ a :: inner)

namespace Visits

variable {α : Type} {next next' : α → List α} {seen ts l l' : List α} {a : α}

/-! ## What a search finds -/

/-- What is found was not seen before, and is found once. -/
theorem fresh (h : Visits next seen ts l) : l.Nodup ∧ ∀ x ∈ l, x ∉ seen := by
  induction h with
  | done seen => simp
  | again _ _ ih => exact ih
  | @visit seen a ts inner l ha _ _ ih ih' =>
    obtain ⟨hinner, hnew⟩ := ih
    obtain ⟨hl, hnew'⟩ := ih'
    have hain : a ∉ inner := fun hx => hnew a hx List.mem_cons_self
    refine ⟨List.nodup_append.mpr ⟨hl, List.nodup_cons.mpr ⟨hain, hinner⟩, ?_⟩, ?_⟩
    · rintro x hx y hy rfl
      exact hnew' x hx (List.mem_append_left seen hy)
    · intro x hx hxs
      rcases List.mem_append.mp hx with hx | hx
      · exact hnew' x hx (List.mem_append_right _ hxs)
      · rcases List.mem_cons.mp hx with rfl | hx
        · exact ha hxs
        · exact hnew x hx (List.mem_cons_of_mem a hxs)

/-- Each start is seen in the end. -/
theorem covers (h : Visits next seen ts l) : ∀ t ∈ ts, t ∈ l ∨ t ∈ seen := by
  induction h with
  | done seen => simp
  | again ha _ ih => exact List.forall_mem_cons.mpr ⟨.inr ha, ih⟩
  | @visit seen a ts inner l _ _ _ _ ih' =>
    refine List.forall_mem_cons.mpr ⟨.inl (by simp), ?_⟩
    intro t ht
    have := ih' t ht
    simp only [List.mem_append, List.mem_cons] at this ⊢
    grind

/-- What is found leads to what is found or was seen before. -/
theorem closed (h : Visits next seen ts l) : ∀ a ∈ l, ∀ b ∈ next a, b ∈ l ∨ b ∈ seen := by
  induction h with
  | done seen => simp
  | again _ _ ih => exact ih
  | @visit seen a ts inner l _ hin _ ih ih' =>
    intro x hx b hb
    have hcovers : x = a → b ∈ inner ∨ b ∈ a :: seen := by
      rintro rfl
      exact hin.covers b hb
    have hinner := fun hx => ih x hx b hb
    have hlater := fun hx => ih' x hx b hb
    simp only [List.mem_append, List.mem_cons] at hx hcovers hinner hlater ⊢
    grind

/-- What holds of the starts, and goes from each member to the next, holds of what is found. -/
theorem inside {P : α → Prop} (h : Visits next seen ts l) (hnext : ∀ a, P a → ∀ b ∈ next a, P b)
    (hts : ∀ t ∈ ts, P t) : ∀ x ∈ l, P x := by
  induction h with
  | done seen => simp
  | again _ _ ih => exact ih (List.forall_mem_cons.mp hts).2
  | @visit seen a ts inner l _ _ _ ih ih' =>
    obtain ⟨ha, hts⟩ := List.forall_mem_cons.mp hts
    intro x hx
    rcases List.mem_append.mp hx with hx | hx
    · exact ih' hts x hx
    · rcases List.mem_cons.mp hx with rfl | hx
      · exact ha
      · exact ih (hnext a ha) x hx

/-- A path comes to each member that is found. What is on the path was on the way to a start, or
comes before the member in the order. -/
theorem path {P : α → List α → Prop} (hstep : ∀ a p, P a p → ∀ b ∈ next a, P b (b :: p))
    (h : Visits next seen ts l) (way : List α)
    (hts : ∀ t ∈ ts, ∃ p, P t (t :: p) ∧ ∀ x ∈ p, x ∈ way) :
    ∀ b ∈ l, ∃ p, P b p ∧ ∀ x ∈ p, x = b ∨ x ∈ way ∨ [x, b].Sublist l := by
  -- a member is on the way to all that is found from it
  induction h generalizing way with
  | done seen => simp
  | again _ _ ih => exact ih way (List.forall_mem_cons.mp hts).2
  | @visit seen a ts inner l _ _ _ ih ih' =>
    obtain ⟨⟨p, hp, hway⟩, hts⟩ := List.forall_mem_cons.mp hts
    intro b hb
    rcases List.mem_append.mp hb with hb | hb
    · obtain ⟨q, hq, hall⟩ := ih' way hts b hb
      refine ⟨q, hq, ?_⟩
      intro x hx
      exact (hall x hx).imp_right (Or.imp_right fun h => h.trans (List.sublist_append_left _ _))
    · rcases List.mem_cons.mp hb with rfl | hinner
      · refine ⟨b :: p, hp, List.forall_mem_cons.mpr ⟨.inl rfl, ?_⟩⟩
        exact fun x hx => .inr (.inl (hway x hx))
      · obtain ⟨q, hq, hall⟩ := ih (a :: way)
          (fun t ht => ⟨a :: p, hstep a _ hp t ht, by simpa using fun x hx => .inr (hway x hx)⟩)
          b hinner
        refine ⟨q, hq, ?_⟩
        intro x hx
        have hin : (a :: inner).Sublist (l ++ a :: inner) := List.sublist_append_right _ _
        rcases hall x hx with rfl | hx | hx
        · exact .inl rfl
        · rcases List.mem_cons.mp hx with rfl | hx
          · exact .inr (.inr (.trans (.cons_cons x (List.singleton_sublist.mpr hinner)) hin))
          · exact .inr (.inl hx)
        · exact .inr (.inr (.trans (.cons a hx) hin))

/-- There is one order only. -/
theorem unique (h : Visits next seen ts l) (h' : Visits next seen ts l') : l = l' := by
  induction h generalizing l' with
  | done seen =>
    cases h'
    rfl
  | again ha _ ih =>
    cases h' with
    | again _ hrest => exact ih hrest
    | visit hno => exact absurd ha hno
  | visit hno _ _ ih ih' =>
    cases h' with
    | again ha _ => exact absurd ha hno
    | visit _ hin hrest =>
      obtain rfl := ih hin
      rw [ih' hrest]

/-- A search from one start, and then from the others. -/
theorem cons (h : Visits next seen [a] l) (h' : Visits next (l ++ seen) ts l') :
    Visits next seen (a :: ts) (l' ++ l) := by
  cases h with
  | again ha hrest =>
    cases hrest
    rw [List.append_nil]
    exact .again ha h'
  | visit hno hin hrest =>
    cases hrest
    exact .visit hno hin h'

/-- Only the edges of what is found matter. -/
theorem congr (h : Visits next seen ts l) (hnext : ∀ a ∈ l, next' a = next a) :
    Visits next' seen ts l := by
  induction h with
  | done seen => exact .done seen
  | again ha _ ih => exact .again ha (ih hnext)
  | @visit seen a ts inner l hno _ _ ih ih' =>
    refine .visit hno ?_ (ih' fun x hx => hnext x (by simp [hx]))
    rw [hnext a (by simp)]
    exact ih fun x hx => hnext x (by simp [hx])

/-! ## Members that are passed over -/

/-- Some members only lead on to one other, and all edges to them are led to where they end
up. Each of them is further away from there than the next. -/
structure Shortcut (P : α → Prop) (next next' : α → List α) (gone : α → Prop) (f : α → α)
    (far : α → Nat) : Prop where
  closed : ∀ a, P a → ∀ b ∈ next a, P b
  keeps : ∀ a, ¬ gone a → f a = a
  lands : ∀ a, P a → ¬ gone (f a)
  next_of_stays : ∀ a, P a → ¬ gone a → next' a = (next a).map f
  next_of_gone : ∀ a, P a → gone a → ∃ t, next a = [t] ∧ f t = f a ∧ far t < far a

section Shortcut

variable {P gone : α → Prop} {f : α → α} {far : α → Nat} {seen' inner : List α} {t : α}

/-- Two searches have seen the same of what is left. -/
def SameLeft (gone : α → Prop) (seen' seen : List α) : Prop := ∀ x, ¬ gone x → (x ∈ seen' ↔ x ∈ seen)

/-- Where a member is gone, the search has seen where it ends up. -/
def Settled (gone : α → Prop) (f : α → α) (seen : List α) : Prop :=
  ∀ b ∈ seen, gone b → f b ∈ seen

/-- The search may have passed over members and not be at their end yet. It is on the way there,
with one start that is closer. -/
def Passing (gone : α → Prop) (f : α → α) (far : α → Nat) (seen ts : List α) : Prop :=
  ∀ b ∈ seen, gone b → f b ∈ seen ∨ ∃ t, ts = [t] ∧ f b = f t ∧ far t < far b

theorem SameLeft.cons (h : SameLeft gone seen' seen) (a : α) :
    SameLeft gone (a :: seen') (a :: seen) := by
  intro x hx
  simp [h x hx]

theorem SameLeft.skip (h : SameLeft gone seen' seen) (hgone : gone a) :
    SameLeft gone seen' (a :: seen) := by
  intro x hx
  have hne : x ≠ a := by
    rintro rfl
    exact hx hgone
  simp [h x hx, hne]

theorem SameLeft.append [DecidablePred gone] (h : SameLeft gone seen' seen) (inner : List α) :
    SameLeft gone (inner.filter (fun x => ¬ gone x) ++ seen') (inner ++ seen) := by
  intro x hx
  simp [h x hx, hx]

theorem Settled.perm (h : Settled gone f seen) {s : List α} (hperm : seen.Perm s) :
    Settled gone f s := by
  intro b hb hgone
  exact hperm.mem_iff.mp (h b (hperm.mem_iff.mpr hb) hgone)

theorem Settled.passing (h : Settled gone f seen) : Passing gone f far seen ts :=
  fun b hb hgone => .inl (h b hb hgone)

theorem Passing.settled_of_nil (h : Passing gone f far seen []) : Settled gone f seen := by
  intro b hb hgone
  rcases h b hb hgone with hfb | ⟨t, ht, -⟩
  · exact hfb
  · cases ht

theorem Passing.settled_of_mem (h : Passing gone f far seen (a :: ts)) (hfa : f a ∈ seen) :
    Settled gone f seen := by
  intro b hb hgone
  rcases h b hb hgone with hfb | ⟨t, ht, heq, -⟩
  · exact hfb
  · cases ht
    exact heq ▸ hfa

/-- A start that was seen is not on the way, as it would have to be closer than itself. -/
theorem Passing.mem (hs : Shortcut P next next' gone f far)
    (h : Passing gone f far seen (a :: ts)) (ha : a ∈ seen) : f a ∈ seen := by
  by_cases hgone : gone a
  · rcases h a ha hgone with hfa | ⟨t, ht, -, hfar⟩
    · exact hfa
    · cases ht
      omega
  · rw [hs.keeps a hgone]
    exact ha

/-- A start that is gone leads one step closer. -/
theorem Passing.pass (h : Passing gone f far seen (a :: ts)) (hft : f t = f a)
    (hfar : far t < far a) : Passing gone f far (a :: seen) [t] := by
  intro b hb hgone
  rcases List.mem_cons.mp hb with rfl | hb
  · exact .inr ⟨t, rfl, hft.symm, hfar⟩
  · rcases h b hb hgone with hfb | ⟨u, hu, heq, hfar'⟩
    · exact .inl (List.mem_cons_of_mem a hfb)
    · cases hu
      exact .inr ⟨t, rfl, heq.trans hft.symm, by omega⟩

/-- A start that stays is the end of all that was passed over on the way to it. -/
theorem Passing.stay (h : Passing gone f far seen (a :: ts)) (hgone : ¬ gone a) (hfa : f a = a) :
    Settled gone f (a :: seen) := by
  intro b hb hgb
  rcases List.mem_cons.mp hb with rfl | hb
  · exact absurd hgb hgone
  · rcases h b hb hgb with hfb | ⟨u, hu, heq, -⟩
    · exact List.mem_cons_of_mem a hfb
    · cases hu
      rw [heq, hfa]
      exact List.mem_cons_self

/-- The order of a search over what is left is the order of a search over all, without what
was taken out. -/
theorem shortcut [DecidablePred gone] (hs : Shortcut P next next' gone f far)
    (h : Visits next seen ts l) (hts : ∀ t ∈ ts, P t) (hseen : SameLeft gone seen' seen)
    (hpassing : Passing gone f far seen ts) :
    Visits next' seen' (ts.map f) (l.filter (fun x => ¬ gone x)) ∧ Settled gone f (l ++ seen) := by
  induction h generalizing seen' with
  | done seen => exact ⟨.done seen', hpassing.settled_of_nil⟩
  | @again seen a ts l ha _ ih =>
    obtain ⟨hPa, hPts⟩ := List.forall_mem_cons.mp hts
    have hfa : f a ∈ seen := hpassing.mem hs ha
    obtain ⟨hvisits, hsettled⟩ := ih hPts hseen (hpassing.settled_of_mem hfa).passing
    exact ⟨.again ((hseen _ (hs.lands a hPa)).mpr hfa) hvisits, hsettled⟩
  | @visit seen a ts inner l hno _ _ ih ih' =>
    obtain ⟨hPa, hPts⟩ := List.forall_mem_cons.mp hts
    rw [List.filter_append, List.append_assoc]
    by_cases hgone : gone a
    · obtain ⟨t, hnext, hft, hfar⟩ := hs.next_of_gone a hPa hgone
      have hclosed := hs.closed a hPa
      rw [hnext] at ih hclosed
      obtain ⟨hvisits, hinner⟩ := ih hclosed (hseen.skip hgone) (hpassing.pass hft hfar)
      obtain ⟨hvisits', hsettled⟩ := ih' hPts ((hseen.append inner).skip hgone)
        (hinner.perm List.perm_middle).passing
      rw [List.map_singleton, hft] at hvisits
      rw [List.filter_cons_of_neg (by simpa using hgone)]
      exact ⟨hvisits.cons hvisits', hsettled⟩
    · have hfa : f a = a := hs.keeps a hgone
      obtain ⟨hvisits, hinner⟩ := ih (hs.closed a hPa) (hseen.cons a) (hpassing.stay hgone hfa).passing
      obtain ⟨hvisits', hsettled⟩ := ih' hPts ((hseen.append inner).cons a)
        (hinner.perm List.perm_middle).passing
      rw [← hs.next_of_stays a hPa hgone] at hvisits
      rw [List.map_cons, hfa, List.filter_cons_of_pos (by simpa using hgone)]
      exact ⟨.visit (fun ha => hno ((hseen a hgone).mp ha)) hvisits hvisits', hsettled⟩

end Shortcut

end Visits

/-! ## The order of lowering -/

namespace Graph

/-- The search over blocks goes by the rules, and ends with those blocks marked that were seen
before or are left now. -/
theorem WellFormed.leaveOrder {g : Graph} (hg : g.WellFormed) (ids : List BlockId) (seen : KeySet)
    (left : List BlockId) (hids : ∀ id ∈ ids, id ∈ g.order) (visited : List BlockId)
    (hseen : ∀ x, seen.contains x = true ↔ x ∈ visited) :
    ∃ seen' new, (g.leaveOrder ids seen left).map (·.1) = some (seen', new ++ left) ∧
      Visits g.successors visited ids new ∧ ∀ x, seen'.contains x = true ↔ x ∈ new ++ visited := by
  fun_induction Graph.leaveOrder g ids seen left generalizing visited with
  | case1 seen left => exact ⟨seen, [], rfl, .done visited, hseen⟩
  | case2 seen left id rest hm =>
    obtain ⟨r, hr⟩ := KeySet.testAndInsert?_isSome (s := seen) (hg.nonneg (hids id List.mem_cons_self))
    rw [hm] at hr
    cases hr
  | case3 seen left id rest marked hm ih =>
    obtain ⟨-, hrest⟩ := List.forall_mem_cons.mp hids
    obtain ⟨hwas, hmarked⟩ := KeySet.testAndInsert?_spec hm
    have hin : id ∈ visited := (hseen id).mp hwas.symm
    have hsame : ∀ x, marked.contains x = true ↔ x ∈ visited := by
      intro x
      by_cases hx : x = id
      · simp [hmarked, hx, hin]
      · simp [hmarked, hx, hseen]
    obtain ⟨seen', new, hrun, hvisits, hnew⟩ := ih hrest visited hsame
    obtain ⟨r, hr, hval⟩ := Option.map_eq_some_iff.mp hrun
    refine ⟨seen', new, ?_, .again hin hvisits, hnew⟩
    rw [hr]
    exact congrArg some hval
  | case4 seen left id rest marked hm ih ih' =>
    obtain ⟨hid, hrest⟩ := List.forall_mem_cons.mp hids
    obtain ⟨hwas, hmarked⟩ := KeySet.testAndInsert?_spec hm
    have hno : id ∉ visited := by
      rw [← hseen, ← hwas]
      exact Bool.false_ne_true
    obtain ⟨inner, new, hrun, hvisits, hnew⟩ :=
      ih (fun t ht => hg.successors_inside hid ht) (id :: visited) (by simp [hmarked, hseen])
    obtain ⟨⟨r, hi⟩, hr, rfl⟩ := Option.map_eq_some_iff.mp hrun
    obtain ⟨seen', new', hrun', hvisits', hnew'⟩ := ih' inner _ hi hrest (id :: new ++ visited) (by
      intro x
      rw [hnew]
      simp only [List.mem_append, List.mem_cons, List.cons_append]
      grind)
    obtain ⟨r', hr', hval'⟩ := Option.map_eq_some_iff.mp hrun'
    refine ⟨seen', new' ++ id :: new, ?_, .visit hno hvisits hvisits', ?_⟩
    · rw [hr]
      show Option.map _ (Option.bind (g.leaveOrder rest inner (id :: (new ++ left))) _) = _
      rw [hr', List.append_assoc]
      exact congrArg some hval'
    · simpa using hnew'

/-- The order of lowering: the blocks that the search leaves, last first, and the others in
their own order. -/
theorem WellFormed.lowerOrder?_eq {g : Graph} (hg : g.WellFormed) {e : BlockId}
    (he : e ∈ g.order) :
    ∃ l, Visits g.successors [] [e] l ∧ g.lowerOrder? e =
      some (((l ++ g.order.filter (· ∉ l)).filterMap g.block?).map some) := by
  obtain ⟨seen, new, hrun, hvisits, hseen⟩ := hg.leaveOrder [e] (KeySet.ofSize g.cap) []
    (by simpa using he) [] (by simp)
  obtain ⟨r, hleave, hval⟩ := Option.map_eq_some_iff.mp hrun
  refine ⟨new, hvisits, ?_⟩
  have hlisted : ∀ x ∈ new, x ∈ g.order :=
    hvisits.inside (fun a ha b hb => hg.successors_inside ha hb) (by simpa using he)
  have hfilter : g.order.filter (fun x => !seen.contains x) = g.order.filter (· ∉ new) := by
    apply List.filter_congr
    intro x _
    rw [List.append_nil] at hseen
    rw [Bool.eq_iff_iff, Bool.not_eq_true', Bool.eq_false_iff, ne_eq, hseen, decide_eq_true_eq]
  unfold Graph.lowerOrder?
  rw [hleave, Option.map_some, hval, List.append_nil, hg.map_block? hlisted,
    hg.filter_blocks (fun x => !seen.contains x), hfilter, List.filterMap_append, List.map_append]

/-- What the search leaves and the other blocks are all blocks, each once. -/
theorem WellFormed.perm_visits {g : Graph} (hg : g.WellFormed) {e : BlockId} (he : e ∈ g.order)
    {l : List BlockId} (h : Visits g.successors [] [e] l) :
    (l ++ g.order.filter (· ∉ l)).Perm g.order := by
  have hlisted : ∀ x ∈ l, x ∈ g.order :=
    h.inside (fun a ha b hb => hg.successors_inside ha hb) (by simpa using he)
  rw [List.perm_ext_iff_of_nodup _ hg.nodup]
  · intro x
    have := hlisted x
    simp only [List.mem_append, List.mem_filter, decide_eq_true_eq]
    tauto
  · refine List.nodup_append.mpr ⟨h.fresh.1, hg.nodup.filter _, ?_⟩
    rintro x hx y hy rfl
    exact absurd hx (by simpa using (List.mem_filter.mp hy).2)

theorem WellFormed.map_id_visits {g : Graph} (hg : g.WellFormed) {e : BlockId} (he : e ∈ g.order)
    {l : List BlockId} (h : Visits g.successors [] [e] l) :
    ((l ++ g.order.filter (· ∉ l)).filterMap g.block?).map (·.id) =
      l ++ g.order.filter (· ∉ l) :=
  hg.map_id_filterMap fun _ hx => (hg.perm_visits he h).mem_iff.mp hx

/-- The order of lowering goes through the blocks of the graph, each once. -/
theorem WellFormed.lowerOrder? {g : Graph} (hg : g.WellFormed) {e : BlockId} (he : e ∈ g.order)
    {order : List (Option Block)} (h : Graph.lowerOrder? g e = some order) :
    ∃ bs : List Block, order = bs.map some ∧ bs.Perm g.blocks := by
  obtain ⟨l, hl, horder⟩ := hg.lowerOrder?_eq he
  rw [h] at horder
  exact ⟨_, Option.some.inj horder, (hg.perm_visits he hl).filterMap g.block?⟩

/-- What the search from the entry finds are the blocks that can be reached. -/
theorem WellFormed.mem_visits {g : Graph} (hg : g.WellFormed) {e : BlockId}
    (he : g.entry = some e) {l : List BlockId} (h : Visits g.successors [] [e] l) {x : BlockId} :
    x ∈ l ↔ g.Reaches x := by
  constructor
  · refine h.inside (fun a ha b hb => .edge ha hb) ?_ x
    simpa using hg.reaches_entry he
  · intro hx
    induction hx with
    | entry he' _ =>
      rw [he] at he'
      cases he'
      simpa using h.covers e List.mem_cons_self
    | edge _ hb ih => simpa using h.closed _ ih _ hb

end Graph

end FlowGraph

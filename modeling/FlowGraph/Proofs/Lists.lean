import Mathlib.Data.List.Forall2
import Mathlib.Data.List.Nodup

/-!
Facts about lists: what a function that can fail gives on all members, what is
found in a list of pairs, and which of two members comes first.
-/

namespace FlowGraph

/-! ## Functions that can fail -/

theorem mapM_eq_some {α β : Type} {f : α → Option β} {l : List α} {l' : List β} :
    l.mapM f = some l' ↔ List.Forall₂ (fun a b => f a = some b) l l' := by
  induction l generalizing l' with
  | nil => cases l' <;> simp
  | cons a l ih =>
    simp only [List.mapM_cons, Option.bind_eq_bind, Option.bind_eq_some_iff, Option.pure_def,
      Option.some.injEq, ih]
    constructor
    · rintro ⟨b, hb, bs, hbs, rfl⟩
      exact .cons hb hbs
    · rintro (_ | ⟨hb, hbs⟩)
      exact ⟨_, hb, _, hbs, rfl⟩

theorem exists_mapM_eq_some {α β : Type} {f : α → Option β} {l : List α} :
    (∃ l', l.mapM f = some l') ↔ ∀ a ∈ l, (f a).isSome = true := by
  simp only [mapM_eq_some]
  induction l with
  | nil => exact ⟨fun _ => by simp, fun _ => ⟨[], .nil⟩⟩
  | cons a l ih =>
    rw [List.forall_mem_cons, ← ih, Option.isSome_iff_exists]
    constructor
    · rintro ⟨_, hb | ⟨hb, hl⟩⟩
      exact ⟨⟨_, hb⟩, _, hl⟩
    · rintro ⟨⟨b, hb⟩, l', hl⟩
      exact ⟨b :: l', .cons hb hl⟩

theorem mapM_one {α β : Type} {f : α → Option β} {a : α} {l : List β}
    (h : [a].mapM f = some l) : ∃ b, f a = some b ∧ l = [b] := by
  cases mapM_eq_some.mp h with
  | cons hb hnil =>
    cases hnil
    exact ⟨_, hb, rfl⟩

theorem mapM_two {α β : Type} {f : α → Option β} {a a' : α} {l : List β}
    (h : [a, a'].mapM f = some l) : ∃ b b', f a = some b ∧ f a' = some b' ∧ l = [b, b'] := by
  cases mapM_eq_some.mp h with
  | cons hb hrest =>
    obtain ⟨b', hb', rfl⟩ := mapM_one (mapM_eq_some.mpr hrest)
    exact ⟨_, b', hb, hb', rfl⟩

theorem bind_eq_ok {ε α β : Type} {x : Except ε α} {f : α → Except ε β} {b : β} :
    x >>= f = .ok b ↔ ∃ a, x = .ok a ∧ f a = .ok b := by
  cases x with
  | error e => simp [bind, Except.bind]
  | ok a => simp [bind, Except.bind]

theorem map_eq_ok {ε α β : Type} {x : Except ε α} {f : α → β} {b : β} :
    x.map f = .ok b ↔ ∃ a, x = .ok a ∧ f a = b := by
  cases x <;> simp [Except.map]

theorem mapM_eq_ok {ε α β : Type} {f : α → Except ε β} {l : List α} {l' : List β} :
    l.mapM f = .ok l' ↔ List.Forall₂ (fun a b => f a = .ok b) l l' := by
  induction l generalizing l' with
  | nil => cases l' <;> simp [pure, Except.pure]
  | cons a l ih =>
    simp only [List.mapM_cons, bind_eq_ok, ih]
    constructor
    · rintro ⟨b, hb, bs, hbs, hl⟩
      cases hl
      exact .cons hb hbs
    · rintro (_ | ⟨hb, hbs⟩)
      exact ⟨_, hb, _, hbs, rfl⟩

/-- There is a last one of those that have a property. -/
theorem exists_last {α : Type} {P : α → Prop} [DecidablePred P] {l : List α} (h : ∃ a ∈ l, P a) :
    ∃ before a after, l = before ++ a :: after ∧ P a ∧ ∀ b ∈ after, ¬ P b := by
  obtain ⟨a, hfind⟩ : ∃ a, l.reverse.find? (fun a => decide (P a)) = some a := by
    rw [← Option.isSome_iff_exists, List.find?_isSome]
    simpa using h
  obtain ⟨ha, after, before, hsplit, hafter⟩ := List.find?_eq_some_iff_append.mp hfind
  refine ⟨before.reverse, a, after.reverse, ?_, by simpa using ha, by simpa using hafter⟩
  rw [← List.reverse_reverse l, hsplit]
  simp

theorem mapM_eq_error {ε α β : Type} {f : α → Except ε β} {l : List α} {e : ε}
    (h : l.mapM f = .error e) : ∃ a ∈ l, f a = .error e := by
  induction l with
  | nil => cases h
  | cons a l ih =>
    rw [List.mapM_cons] at h
    cases ha : f a with
    | error e' =>
      rw [ha] at h
      cases h
      exact ⟨a, List.mem_cons_self, ha⟩
    | ok b =>
      rw [ha] at h
      cases hl : l.mapM f with
      | error e' =>
        simp only [hl, bind, Except.bind] at h
        cases h
        obtain ⟨a', ha', hfail⟩ := ih hl
        exact ⟨a', List.mem_cons_of_mem a ha', hfail⟩
      | ok l' =>
        simp only [hl, bind, Except.bind] at h
        cases h

theorem exists_mapM_eq_ok {ε α β : Type} {f : α → Except ε β} {l : List α}
    (h : ∀ a ∈ l, ∃ b, f a = .ok b) : ∃ l', l.mapM f = .ok l' := by
  simp only [mapM_eq_ok]
  induction l with
  | nil => exact ⟨[], .nil⟩
  | cons a l ih =>
    obtain ⟨⟨b, hb⟩, hrest⟩ := List.forall_mem_cons.mp h
    obtain ⟨l', hl'⟩ := ih hrest
    exact ⟨b :: l', .cons hb hl'⟩

theorem mapM_eq_ok_map {ε α β : Type} {f : α → Except ε β} {g : α → β} {l : List α}
    (h : ∀ a ∈ l, f a = .ok (g a)) : l.mapM f = .ok (l.map g) := by
  rw [mapM_eq_ok, List.forall₂_map_right_iff, List.forall₂_same]
  exact h

/-- A search among what a function gives is a search with both functions. -/
theorem findSome?_filterMap {α β γ : Type} {f : α → Option β} {g : β → Option γ}
    {h : α → Option γ} {l : List α} (hh : ∀ a ∈ l, h a = (f a).bind g) :
    (l.filterMap f).findSome? g = l.findSome? h := by
  induction l with
  | nil => rfl
  | cons a l ih =>
    obtain ⟨ha, hl⟩ := List.forall_mem_cons.mp hh
    rw [List.findSome?_cons, ha, ← ih hl]
    cases hf : f a with
    | none => rw [List.filterMap_cons_none hf, Option.bind_none]
    | some b => rw [List.filterMap_cons_some hf, List.findSome?_cons, Option.bind_some]

/-! ## Members by place -/

theorem getElem?_of_forall₂ {α β : Type} {R : α → β → Prop} {l : List α} {l' : List β}
    (h : List.Forall₂ R l l') {i : Nat} {a : α} (ha : l[i]? = some a) :
    ∃ b, l'[i]? = some b ∧ R a b := by
  induction h generalizing i with
  | nil => cases ha
  | cons hab _ ih =>
    cases i with
    | zero =>
      cases ha
      exact ⟨_, rfl, hab⟩
    | succ i => exact ih ha

theorem modify_append_cons {α : Type} (f : α → α) (l r : List α) (a : α) :
    (l ++ a :: r).modify l.length f = l ++ f a :: r := by
  induction l with
  | nil => rfl
  | cons b l ih => rw [List.cons_append, List.length_cons, List.modify_succ_cons, ih]; rfl

theorem mem_modify {α : Type} {f : α → α} {l : List α} {k : Nat} {a : α} (h : a ∈ l.modify k f) :
    a ∈ l ∨ ∃ b ∈ l, a = f b := by
  obtain ⟨n, hn⟩ := List.mem_iff_getElem?.mp h
  rw [List.getElem?_modify] at hn
  obtain ⟨b, hb, rfl⟩ := Option.map_eq_some_iff.mp hn
  have hmem := List.mem_of_getElem? hb
  split
  · exact .inr ⟨b, hmem, rfl⟩
  · exact .inl hmem

theorem filterMap_range_getElem? {α : Type} (l : List α) :
    (List.range l.length).filterMap (fun k => l[k]?) = l := by
  induction l with
  | nil => rfl
  | cons a l ih =>
    rw [List.length_cons, List.range_succ_eq_map, List.filterMap_cons, List.filterMap_map]
    exact congrArg (a :: ·) ih

/-- Pieces of one length that are put together can be taken apart by counting. -/
theorem take_drop_flatten {α : Type} {n : Nat} {rs : List (List α)} {last : List α}
    (hrs : ∀ r ∈ rs, r.length = n) (hlast : last.length ≤ n) (k : Nat) :
    ((rs.flatten ++ last).drop (k * n)).take n = ((rs ++ [last])[k]?).getD [] := by
  induction rs generalizing k with
  | nil =>
    cases k with
    | zero => simp [List.take_of_length_le hlast]
    | succ k =>
      have hdrop : last.drop ((k + 1) * n) = [] := by
        rw [List.drop_eq_nil_iff, Nat.succ_mul]
        omega
      simp [hdrop]
  | cons r rs ih =>
    obtain ⟨hr, hrs⟩ := List.forall_mem_cons.mp hrs
    rw [List.flatten_cons, List.append_assoc]
    cases k with
    | zero => simp [← hr]
    | succ k =>
      have hskip : (k + 1) * n = r.length + k * n := by
        rw [Nat.succ_mul, hr]
        omega
      rw [hskip, List.drop_length_add_append, ih hrs]
      rfl

/-! ## Pairs -/

theorem lookup_cons_ne {α β : Type} [BEq α] [LawfulBEq α] {a b : α} {x : β}
    {l : List (α × β)} (h : a ≠ b) : ((b, x) :: l).lookup a = l.lookup a := by
  rw [List.lookup_cons, beq_false_of_ne h]

theorem mem_of_lookup {α β : Type} [BEq α] [LawfulBEq α] {a : α} {x : β} {l : List (α × β)}
    (h : l.lookup a = some x) : (a, x) ∈ l := by
  obtain ⟨l₁, l₂, rfl, -⟩ := List.lookup_eq_some_iff.mp h
  simp

theorem isSome_lookup {α β : Type} [BEq α] [LawfulBEq α] {l : List (α × β)} {a : α} :
    (l.lookup a).isSome = true ↔ a ∈ l.map (·.1) := by
  induction l with
  | nil => simp
  | cons e l ih =>
    by_cases h : a = e.1
    · subst h
      simp
    · rw [lookup_cons_ne h, ih, List.map_cons, List.mem_cons]
      simp [h]

/-- In a list of pairs where no name comes twice, a name stands for what it is paired with. -/
theorem lookup_eq_some_iff_mem {α β : Type} [BEq α] [LawfulBEq α] {l : List (α × β)} {a : α}
    {x : β} (h : (l.map (·.1)).Nodup) : l.lookup a = some x ↔ (a, x) ∈ l := by
  refine ⟨mem_of_lookup, ?_⟩
  intro hmem
  induction l with
  | nil => cases hmem
  | cons e l ih =>
    obtain ⟨hnot, hnodup⟩ := List.nodup_cons.mp h
    rcases List.mem_cons.mp hmem with rfl | hmem
    · rw [List.lookup_cons, beq_self_eq_true]
    · have hne : a ≠ e.1 := by
        rintro rfl
        exact hnot (List.mem_map.mpr ⟨_, hmem, rfl⟩)
      rw [lookup_cons_ne hne]
      exact ih hnodup hmem

/-- In a list of names and their places, the last first, each name stands for its place. -/
theorem lookup_reverse_zipIdx {α : Type} [BEq α] [LawfulBEq α] {l : List α} {a : α} {n k : Nat}
    (h : l.Nodup) : (l.zipIdx n).reverse.lookup a = some k ↔ n ≤ k ∧ l[k - n]? = some a := by
  rw [lookup_eq_some_iff_mem, List.mem_reverse, List.mk_mem_zipIdx_iff_le_and_getElem?_sub]
  rw [List.map_reverse, List.nodup_reverse, List.zipIdx_map_fst]
  exact h

/-! ## Lists without repetition -/

section Order

variable {α : Type} {a b : α}

theorem notMem_of_nodup_append_cons {l r : List α} (h : (l ++ a :: r).Nodup) : a ∉ l :=
  fun ha => (List.nodup_append.mp h).2.2 a ha a List.mem_cons_self rfl

/-- A part of a list without repetition is known by its members. -/
theorem eq_filter_of_sublist [DecidableEq α] {l m : List α} (h : l.Sublist m) (hn : m.Nodup) :
    l = m.filter (· ∈ l) := by
  induction h with
  | slnil => rfl
  | @cons l m a h ih =>
    obtain ⟨ha, hm⟩ := List.nodup_cons.mp hn
    have hal : a ∉ l := fun hal => ha (h.subset hal)
    rw [List.filter_cons_of_neg (by simpa using hal)]
    exact ih hm
  | @cons_cons l m a h ih =>
    obtain ⟨ha, hm⟩ := List.nodup_cons.mp hn
    rw [List.filter_cons_of_pos (by simp)]
    have hsame : m.filter (· ∈ a :: l) = m.filter (· ∈ l) := by
      apply List.filter_congr
      intro x hx
      have hxa : x ≠ a := fun he => ha (he ▸ hx)
      simp [hxa]
    rw [hsame, ← ih hm]

variable [BEq α] [LawfulBEq α]

theorem idxOf_lt_of_mem {l r : List α} (hn : (l ++ b :: r).Nodup) (ha : a ∈ l) :
    (l ++ b :: r).idxOf a < (l ++ b :: r).idxOf b := by
  have hb : b ∉ l := notMem_of_nodup_append_cons hn
  rw [List.idxOf_append_of_mem ha, List.idxOf_append_of_notMem hb, List.idxOf_cons_self]
  have := List.idxOf_lt_length_of_mem ha
  omega

theorem mem_of_idxOf_le {l r : List α} (hne : a ≠ b)
    (hle : (l ++ b :: r).idxOf a ≤ (l ++ b :: r).idxOf b) : a ∈ l := by
  by_contra ha
  rw [List.idxOf_append_of_notMem ha, List.idxOf_cons_ne _ (Ne.symm hne)] at hle
  have : (l ++ b :: r).idxOf b ≤ l.length := by
    by_cases hb : b ∈ l
    · rw [List.idxOf_append_of_mem hb]
      exact List.idxOf_le_length
    · rw [List.idxOf_append_of_notMem hb, List.idxOf_cons_self]
      omega
  omega

/-- Taking members out of a list does not change which of two others comes first. -/
theorem idxOf_filter_le {l : List α} {p : α → Bool} (ha : a ∈ l.filter p) (hb : b ∈ l.filter p) :
    (l.filter p).idxOf a ≤ (l.filter p).idxOf b ↔ l.idxOf a ≤ l.idxOf b := by
  induction l with
  | nil => cases ha
  | cons x l ih =>
    by_cases hx : p x
    · rw [List.filter_cons_of_pos hx] at ha hb ⊢
      by_cases hxa : x = a
      · subst hxa
        simp
      · by_cases hxb : x = b
        · subst hxb
          simp [List.idxOf_cons_ne _ hxa]
        · rw [List.idxOf_cons_ne _ hxa, List.idxOf_cons_ne _ hxb, List.idxOf_cons_ne _ hxa,
            List.idxOf_cons_ne _ hxb, Nat.succ_le_succ_iff, Nat.succ_le_succ_iff]
          exact ih ((List.mem_cons.mp ha).resolve_left (Ne.symm hxa))
            ((List.mem_cons.mp hb).resolve_left (Ne.symm hxb))
    · rw [List.filter_cons_of_neg hx] at ha hb ⊢
      have hxa : x ≠ a := fun he => hx (he ▸ List.of_mem_filter ha)
      have hxb : x ≠ b := fun he => hx (he ▸ List.of_mem_filter hb)
      rw [List.idxOf_cons_ne _ hxa, List.idxOf_cons_ne _ hxb, Nat.succ_le_succ_iff]
      exact ih ha hb

theorem map_idxOf {l : List α} (h : l.Nodup) : l.map l.idxOf = List.range l.length := by
  apply List.ext_getElem
  · simp
  · intro k hk _
    rw [List.getElem_map, List.getElem_range, h.idxOf_getElem]

theorem idxOf_le_of_getLast? {l : List α} (hn : l.Nodup) (hb : l.getLast? = some b) (ha : a ∈ l) :
    l.idxOf a ≤ l.idxOf b := by
  obtain ⟨init, rfl⟩ := List.getLast?_eq_some_iff.mp hb
  by_cases hab : a = b
  · exact Nat.le_of_eq (by rw [hab])
  · have hinit : a ∈ init := by simpa [hab] using ha
    exact Nat.le_of_lt (idxOf_lt_of_mem hn hinit)

end Order

end FlowGraph

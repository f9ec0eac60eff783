import Mathlib.Data.List.Infix
import Mathlib.Tactic.Push

/-!
Machines that run step by step and call to the outside on the way. A run has
one behaviour: it returns, it sticks, it goes on forever after some last call,
or it makes calls forever. When each step of one machine is matched by some
steps of another, both have the same behaviours.
-/

namespace FlowGraph

/-! ## Behaviours -/

/-- A call to the outside: the name called and the values given to it. -/
structure Event where
  callee : String
  args : List Int64
deriving DecidableEq

/-- What the outside answers to a call. It may depend on all calls made before. -/
abbrev Oracle := List Event → Event → Int64

/-- What a run comes to, with the calls that it makes. -/
inductive Behaviour where
  | returns (calls : List Event) (x : Int64)
  | sticks (calls : List Event)
  -- the run goes on forever, but these are all its calls
  | diverges (calls : List Event)
  -- the run makes calls forever
  | reacts (calls : Nat → Event)

/-- What one step comes to. -/
inductive Move (σ : Type) where
  | next (s : σ)
  | done (x : Int64)
  | stuck

/-- A machine: its steps, and the calls that a state has behind it. -/
structure Machine (σ : Type) where
  step : σ → Move σ
  calls : σ → List Event
  grows : ∀ s s', step s = .next s' → calls s <+: calls s'

namespace Machine

variable {σ τ : Type} {m : Machine σ} {m' : Machine τ}

/-- The state after `n` steps, unless the run ends before. -/
def after (m : Machine σ) : Nat → σ → Option σ
  | 0, s => some s
  | n + 1, s =>
    match m.step s with
    | .next s' => m.after n s'
    | _ => none

/-- A run from a state has a behaviour. -/
def Behaves (m : Machine σ) (s : σ) : Behaviour → Prop
  | .returns t x => ∃ n s', m.after n s = some s' ∧ m.step s' = .done x ∧ m.calls s' = t
  | .sticks t => ∃ n s', m.after n s = some s' ∧ m.step s' = .stuck ∧ m.calls s' = t
  | .diverges t => ∃ n, ∀ k, ∃ s', m.after (n + k) s = some s' ∧ m.calls s' = t
  | .reacts f => ∀ k, ∃ n s', m.after n s = some s' ∧ (List.range k).map f <+: m.calls s'

/-! ## States on the way -/

theorem after_add (n k : Nat) (s : σ) :
    m.after (n + k) s = (m.after n s).bind (m.after k) := by
  induction n generalizing s with
  | zero => simp [after]
  | succ n ih =>
    rw [Nat.succ_add]
    simp only [after]
    cases m.step s with
    | next s' => exact ih s'
    | done x => rfl
    | stuck => rfl

theorem after_succ {n : Nat} {s s' : σ} (h : m.after n s = some s') :
    m.after (n + 1) s = m.after 1 s' := by
  rw [after_add, h]
  rfl

theorem after_one {s s' : σ} : m.after 1 s = some s' ↔ m.step s = .next s' := by
  unfold after
  split
  · rename_i t ht
    simp [after, ht]
  · rename_i hno
    simp only [reduceCtorEq, false_iff]
    exact hno s'

theorem after_le {n k : Nat} {s s' : σ} (hk : k ≤ n) (h : m.after n s = some s') :
    ∃ t, m.after k s = some t ∧ m.after (n - k) t = some s' := by
  obtain ⟨d, rfl⟩ := Nat.exists_eq_add_of_le hk
  rw [after_add] at h
  obtain ⟨t, ht, hd⟩ := Option.bind_eq_some_iff.mp h
  exact ⟨t, ht, by rwa [Nat.add_sub_cancel_left]⟩

theorem calls_after {n : Nat} {s s' : σ} (h : m.after n s = some s') :
    m.calls s <+: m.calls s' := by
  induction n generalizing s with
  | zero => cases h; exact List.prefix_rfl
  | succ n ih =>
    unfold after at h
    split at h
    · rename_i t ht
      exact (m.grows s t ht).trans (ih h)
    · cases h

theorem calls_mono {n k : Nat} {s a b : σ} (hk : n ≤ k) (ha : m.after n s = some a)
    (hb : m.after k s = some b) : m.calls a <+: m.calls b := by
  obtain ⟨t, ht, hrest⟩ := after_le hk hb
  rw [ha] at ht
  cases ht
  exact calls_after hrest

/-- The state cannot go on. -/
def Ends (m : Machine σ) (s : σ) : Prop := ∀ s', m.step s ≠ .next s'

theorem after_of_ends {n k : Nat} {s a b : σ} (ha : m.after n s = some a) (he : m.Ends a)
    (hb : m.after k s = some b) : k ≤ n := by
  by_contra hk
  obtain ⟨t, ht, -⟩ := after_le (by omega : n + 1 ≤ k) hb
  rw [after_succ ha, after_one] at ht
  exact he t ht

theorem after_ends_unique {n k : Nat} {s a b : σ} (ha : m.after n s = some a) (hea : m.Ends a)
    (hb : m.after k s = some b) (heb : m.Ends b) : a = b := by
  have h1 := after_of_ends ha hea hb
  have h2 := after_of_ends hb heb ha
  have hnk : n = k := by omega
  subst hnk
  rw [ha] at hb
  cases hb
  rfl

theorem ends_of_done {s : σ} {x : Int64} (h : m.step s = .done x) : m.Ends s := by
  intro s' hs
  rw [h] at hs
  cases hs

theorem ends_of_stuck {s : σ} (h : m.step s = .stuck) : m.Ends s := by
  intro s' hs
  rw [h] at hs
  cases hs

/-! ## Every run has one behaviour -/

/-- A run that ends does not go on forever. -/
theorem not_diverges_of_ends {n : Nat} {s a : σ} {t : List Event} (ha : m.after n s = some a)
    (he : m.Ends a) : ¬ m.Behaves s (.diverges t) := by
  rintro ⟨k, hk⟩
  obtain ⟨b, hb, -⟩ := hk (n + 1)
  have := after_of_ends ha he hb
  omega

/-- A run that makes calls forever has no bound on its calls. -/
theorem not_reacts_of_bound {s : σ} {f : Nat → Event} (bound : Nat)
    (h : ∀ n a, m.after n s = some a → (m.calls a).length ≤ bound) :
    ¬ m.Behaves s (.reacts f) := by
  intro hr
  obtain ⟨n, a, ha, hp⟩ := hr (bound + 1)
  have h1 := h n a ha
  have h2 := hp.length_le
  simp only [List.length_map, List.length_range] at h2
  omega

theorem not_reacts_of_ends {n : Nat} {s a : σ} {f : Nat → Event} (ha : m.after n s = some a)
    (he : m.Ends a) : ¬ m.Behaves s (.reacts f) :=
  not_reacts_of_bound _ (fun _ _ hb =>
    (calls_mono (after_of_ends ha he hb) hb ha).length_le)

theorem not_reacts_of_diverges {s : σ} {f : Nat → Event} {t : List Event}
    (h : m.Behaves s (.diverges t)) : ¬ m.Behaves s (.reacts f) := by
  obtain ⟨n, hn⟩ := h
  apply not_reacts_of_bound t.length
  intro k a ha
  obtain ⟨b, hb, hbt⟩ := hn k
  rw [← hbt]
  exact (calls_mono (by omega) ha hb).length_le

theorem diverges_unique {s : σ} {t t' : List Event} (h : m.Behaves s (.diverges t))
    (h' : m.Behaves s (.diverges t')) : t = t' := by
  obtain ⟨n, hn⟩ := h
  obtain ⟨k, hk⟩ := h'
  obtain ⟨a, ha, hat⟩ := hn k
  obtain ⟨b, hb, hbt⟩ := hk n
  rw [Nat.add_comm, hb] at ha
  cases ha
  rw [← hat, hbt]

theorem reacts_unique {s : σ} {f f' : Nat → Event} (h : m.Behaves s (.reacts f))
    (h' : m.Behaves s (.reacts f')) : f = f' := by
  funext k
  obtain ⟨n, a, ha, hpa⟩ := h (k + 1)
  obtain ⟨n', b, hb, hpb⟩ := h' (k + 1)
  -- the later of the two states has the calls of both behind it
  have hsame : (List.range (k + 1)).map f = (List.range (k + 1)).map f' := by
    rcases Nat.le_total n n' with hle | hle
    · exact (List.prefix_of_prefix_length_le (hpa.trans (calls_mono hle ha hb)) hpb
        (by simp)).eq_of_length (by simp)
    · exact (List.prefix_of_prefix_length_le hpa (hpb.trans (calls_mono hle hb ha))
        (by simp)).eq_of_length (by simp)
  have hk := congrArg (fun l => l[k]?) hsame
  simpa using hk

/-- A run does not have two behaviours. -/
theorem Behaves.unique {s : σ} {b b' : Behaviour} (h : m.Behaves s b) (h' : m.Behaves s b') :
    b = b' := by
  cases b with
  | returns t x =>
    obtain ⟨n, a, ha, hda, rfl⟩ := h
    have hea := ends_of_done hda
    cases b' with
    | returns t' x' =>
      obtain ⟨n', a', ha', hda', rfl⟩ := h'
      cases after_ends_unique ha hea ha' (ends_of_done hda')
      rw [hda] at hda'
      cases hda'
      rfl
    | sticks t' =>
      obtain ⟨n', a', ha', hsa', rfl⟩ := h'
      cases after_ends_unique ha hea ha' (ends_of_stuck hsa')
      rw [hda] at hsa'
      cases hsa'
    | diverges t' => exact absurd h' (not_diverges_of_ends ha hea)
    | reacts f => exact absurd h' (not_reacts_of_ends ha hea)
  | sticks t =>
    obtain ⟨n, a, ha, hsa, rfl⟩ := h
    have hea := ends_of_stuck hsa
    cases b' with
    | returns t' x' =>
      obtain ⟨n', a', ha', hda', rfl⟩ := h'
      cases after_ends_unique ha hea ha' (ends_of_done hda')
      rw [hsa] at hda'
      cases hda'
    | sticks t' =>
      obtain ⟨n', a', ha', hsa', rfl⟩ := h'
      cases after_ends_unique ha hea ha' (ends_of_stuck hsa')
      rfl
    | diverges t' => exact absurd h' (not_diverges_of_ends ha hea)
    | reacts f => exact absurd h' (not_reacts_of_ends ha hea)
  | diverges t =>
    cases b' with
    | returns t' x' =>
      obtain ⟨n', a', ha', hda', rfl⟩ := h'
      exact absurd h (not_diverges_of_ends ha' (ends_of_done hda'))
    | sticks t' =>
      obtain ⟨n', a', ha', hsa', rfl⟩ := h'
      exact absurd h (not_diverges_of_ends ha' (ends_of_stuck hsa'))
    | diverges t' => rw [diverges_unique h h']
    | reacts f => exact absurd h' (not_reacts_of_diverges h)
  | reacts f =>
    cases b' with
    | returns t' x' =>
      obtain ⟨n', a', ha', hda', rfl⟩ := h'
      exact absurd h (not_reacts_of_ends ha' (ends_of_done hda'))
    | sticks t' =>
      obtain ⟨n', a', ha', hsa', rfl⟩ := h'
      exact absurd h (not_reacts_of_ends ha' (ends_of_stuck hsa'))
    | diverges t' => exact absurd h (not_reacts_of_diverges h')
    | reacts f' => rw [reacts_unique h h']

/-- A run that never ends and whose calls have no bound makes calls forever. -/
theorem reacts_of_unbounded {s : σ}
    (h : ∀ k, ∃ n a, m.after n s = some a ∧ k < (m.calls a).length) :
    ∃ f, m.Behaves s (.reacts f) := by
  choose at_ state hstate hlen using h
  refine ⟨fun k => (m.calls (state k)).get ⟨k, hlen k⟩, ?_⟩
  intro k
  refine ⟨at_ k, state k, hstate k, ?_⟩
  rw [List.prefix_iff_getElem?]
  intro j hj
  have hjk : j < k := by simpa using hj
  -- of two states on the way the later one has made the calls of the earlier one first
  have hsame : (m.calls (state k))[j]? = (m.calls (state j))[j]? := by
    have hjlen := hlen j
    have hklen := hlen k
    rcases Nat.le_total (at_ k) (at_ j) with hle | hle
    · obtain ⟨more, hmore⟩ := calls_mono hle (hstate k) (hstate j)
      rw [← hmore, List.getElem?_append_left (by omega)]
    · obtain ⟨more, hmore⟩ := calls_mono hle (hstate j) (hstate k)
      rw [← hmore, List.getElem?_append_left hjlen]
  rw [hsame, List.getElem?_eq_getElem (hlen j)]
  simp

/-- Every run has a behaviour. -/
theorem exists_behaviour (m : Machine σ) (s : σ) : ∃ b, m.Behaves s b := by
  by_cases hend : ∃ n a, m.after n s = some a ∧ m.Ends a
  · obtain ⟨n, a, ha, he⟩ := hend
    cases hs : m.step a with
    | next a' => exact absurd hs (he a')
    | done x => exact ⟨.returns _ x, n, a, ha, hs, rfl⟩
    | stuck => exact ⟨.sticks _, n, a, ha, hs, rfl⟩
  · -- no state on the way ends, so there is one after any number of steps
    have hall : ∀ n, ∃ a, m.after n s = some a := by
      intro n
      induction n with
      | zero => exact ⟨s, rfl⟩
      | succ n ih =>
        obtain ⟨a, ha⟩ := ih
        cases hs : m.step a with
        | next a' => exact ⟨a', by rw [after_succ ha, after_one, hs]⟩
        | done x => exact absurd ⟨n, a, ha, ends_of_done hs⟩ hend
        | stuck => exact absurd ⟨n, a, ha, ends_of_stuck hs⟩ hend
    by_cases hb : ∀ k, ∃ n a, m.after n s = some a ∧ k < (m.calls a).length
    · obtain ⟨f, hf⟩ := reacts_of_unbounded hb
      exact ⟨.reacts f, hf⟩
    · -- a longest list of calls is never left again
      push Not at hb
      obtain ⟨bound, hbound⟩ := hb
      choose state hstate using hall
      obtain ⟨n, hn⟩ : ∃ n, ∀ k, (m.calls (state k)).length ≤ (m.calls (state n)).length := by
        by_contra hno
        push Not at hno
        -- if each list of calls had a longer one, they would grow past the bound
        have hup : ∀ j, ∃ n, j ≤ (m.calls (state n)).length := by
          intro j
          induction j with
          | zero => exact ⟨0, Nat.zero_le _⟩
          | succ j ih =>
            obtain ⟨n, hn⟩ := ih
            obtain ⟨k, hk⟩ := hno n
            exact ⟨k, by omega⟩
        obtain ⟨n, hn⟩ := hup (bound + 1)
        have := hbound n (state n) (hstate n)
        omega
      refine ⟨.diverges (m.calls (state n)), n, fun k => ⟨state (n + k), hstate _, ?_⟩⟩
      have hp := calls_mono (Nat.le_add_right n k) (hstate n) (hstate (n + k))
      exact (hp.eq_of_length (Nat.le_antisymm hp.length_le (hn (n + k)))).symm

/-! ## Simulation -/

/-- Each step of the first machine is matched by one or more steps of the second,
and both end in the same way. -/
structure Simulates (m' : Machine τ) (m : Machine σ) (r : τ → σ → Prop) : Prop where
  calls : ∀ s' s, r s' s → m'.calls s' = m.calls s
  done : ∀ s' s x, r s' s → m'.step s' = .done x → m.step s = .done x
  stuck : ∀ s' s, r s' s → m'.step s' = .stuck → m.step s = .stuck
  next : ∀ s' s t', r s' s → m'.step s' = .next t' → ∃ n t, m.after (n + 1) s = some t ∧ r t' t

theorem Simulates.after {r : τ → σ → Prop} (h : Simulates m' m r) (n : Nat) {s' t' : τ} {s : σ}
    (hr : r s' s) (ht : m'.after n s' = some t') : ∃ k t, n ≤ k ∧ m.after k s = some t ∧ r t' t := by
  induction n generalizing s' s with
  | zero =>
    cases ht
    exact ⟨0, s, Nat.le_refl 0, rfl, hr⟩
  | succ n ih =>
    unfold Machine.after at ht
    split at ht
    · rename_i u' hu'
      obtain ⟨i, u, hu, hru⟩ := h.next s' s u' hr hu'
      obtain ⟨k, t, hk, hkt, hrt⟩ := ih hru ht
      refine ⟨i + 1 + k, t, by omega, ?_, hrt⟩
      rw [after_add, hu]
      exact hkt
    · cases ht

theorem Simulates.behaves {r : τ → σ → Prop} (h : Simulates m' m r) {s' : τ} {s : σ}
    (hr : r s' s) {b : Behaviour} (hb : m'.Behaves s' b) : m.Behaves s b := by
  cases b with
  | returns t x =>
    obtain ⟨n, a', ha', hd, rfl⟩ := hb
    obtain ⟨k, a, -, ha, hra⟩ := h.after n hr ha'
    exact ⟨k, a, ha, h.done a' a x hra hd, (h.calls a' a hra).symm⟩
  | sticks t =>
    obtain ⟨n, a', ha', hs, rfl⟩ := hb
    obtain ⟨k, a, -, ha, hra⟩ := h.after n hr ha'
    exact ⟨k, a, ha, h.stuck a' a hra hs, (h.calls a' a hra).symm⟩
  | diverges t =>
    obtain ⟨n, hn⟩ := hb
    obtain ⟨a', ha', hat⟩ := hn 0
    obtain ⟨i, a, -, ha, hra⟩ := h.after n hr ha'
    refine ⟨i, fun k => ?_⟩
    -- a later match has made the same calls, and so has all between
    obtain ⟨c', hc', hct⟩ := hn (i + k)
    obtain ⟨j, c, hj, hc, hrc⟩ := h.after _ hr hc'
    obtain ⟨d, hd, -⟩ := after_le (by omega : i + k ≤ j) hc
    refine ⟨d, hd, ?_⟩
    have h1 := calls_mono (by omega : i ≤ i + k) ha hd
    have h2 := calls_mono (by omega : i + k ≤ j) hd hc
    rw [← h.calls a' a hra, hat] at h1
    rw [← h.calls c' c hrc, hct] at h2
    exact (h1.eq_of_length (Nat.le_antisymm h1.length_le h2.length_le)).symm
  | reacts f =>
    intro k
    obtain ⟨n, a', ha', hp⟩ := hb k
    obtain ⟨j, a, -, ha, hra⟩ := h.after n hr ha'
    exact ⟨j, a, ha, h.calls a' a hra ▸ hp⟩

/-- A run has the behaviour that it has after some of its steps. -/
theorem behaves_of_after {n : Nat} {s s' : σ} (hs : m.after n s = some s') {b : Behaviour}
    (hb : m.Behaves s' b) : m.Behaves s b := by
  have hjoin : ∀ {k : Nat} {a : σ}, m.after k s' = some a → m.after (n + k) s = some a := by
    intro k a ha
    rw [after_add, hs]
    exact ha
  cases b with
  | returns t x =>
    obtain ⟨k, a, ha, hd, hc⟩ := hb
    exact ⟨n + k, a, hjoin ha, hd, hc⟩
  | sticks t =>
    obtain ⟨k, a, ha, hd, hc⟩ := hb
    exact ⟨n + k, a, hjoin ha, hd, hc⟩
  | diverges t =>
    obtain ⟨k, hk⟩ := hb
    refine ⟨n + k, fun j => ?_⟩
    obtain ⟨a, ha, hc⟩ := hk j
    exact ⟨a, by rw [Nat.add_assoc]; exact hjoin ha, hc⟩
  | reacts f =>
    intro k
    obtain ⟨j, a, ha, hp⟩ := hb k
    exact ⟨n + j, a, hjoin ha, hp⟩

/-- Machines of which one matches each step of the other have the same behaviours. -/
theorem Simulates.behaves_iff {r : τ → σ → Prop} (h : Simulates m' m r) {n : Nat} {s' : τ}
    {s t : σ} (ht : m.after n s = some t) (hr : r s' t) (b : Behaviour) :
    m'.Behaves s' b ↔ m.Behaves s b := by
  refine ⟨fun hb => behaves_of_after ht (h.behaves hr hb), fun hb => ?_⟩
  -- the other way round: the first run has some behaviour, which is then that of the second
  obtain ⟨b', hb'⟩ := exists_behaviour m' s'
  rw [hb.unique (behaves_of_after ht (h.behaves hr hb'))]
  exact hb'

end Machine

end FlowGraph

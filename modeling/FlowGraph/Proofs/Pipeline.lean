import FlowGraph.Pipeline

/-!
What a run of a pipeline keeps. When each pass keeps a property and does not
fail on a state that has it, so does a round, and so does the whole run. A run
that fails then fails for one reason only, which is that the rounds ran out.
-/

namespace FlowGraph.Pipeline

variable {σ : Type} [HasGraph σ] {p : Pipeline σ} {P : σ → Prop}

/-- The passes of a pipeline keep a property. On a state that has it no check finds
a fault and no pass fails, and a pass that says it changed nothing did not. -/
structure Keeps (p : Pipeline σ) (P : σ → Prop) : Prop where
  sound : ∀ x, P x → p.faultAt x = none
  runs : ∀ q ∈ p.passes, ∀ x, P x → (q.run x).error = none
  pass : ∀ q ∈ p.passes, ∀ x, P x → P (q.run x).state
  still : ∀ q ∈ p.passes, ∀ x, P x → (q.run x).changed = false → (q.run x).state = x

/-- No pass of the pipeline says it changes this state. -/
def Settled (p : Pipeline σ) (x : σ) : Prop := ∀ q ∈ p.passes, (q.run x).changed = false

/-- The rounds do not run out. -/
def Converges (p : Pipeline σ) (x : σ) : Prop :=
  ∀ name rounds, ({ p with onLimit := .reject }.run x).error ≠ some (.noFixpoint name rounds)

theorem roundLimit_pos {σ : Type} (p : Pipeline σ) : 0 < p.roundLimit := by
  unfold roundLimit defaultMaxRounds
  split <;> omega

/-! ## Failures -/

theorem foldl_step_failed {n : Nat} (qs : List (Pass σ)) {s : Round σ} (he : s.error ≠ none) :
    qs.foldl (p.step n) s = s := by
  induction qs with
  | nil => rfl
  | cons q qs ih =>
    have hstep : p.step n s q = s := by
      unfold step
      rw [if_pos (Option.isSome_iff_ne_none.mpr he)]
    rw [List.foldl_cons, hstep, ih]

/-- When the first pass fails, no other is called, and the run leaves what that pass leaves. -/
theorem run_of_first_fails {q : Pass σ} {qs : List (Pass σ)} (hp : p.passes = q :: qs) {x : σ}
    (hx : p.faultAt x = none) {e : PassError} (he : (q.run x).error = some e) :
    p.run x = { state := (q.run x).state, calls := 1, error := some (.pass 0 q.name e) } := by
  have hround : p.round 0 x =
      { state := (q.run x).state, calls := 1, error := some (.pass 0 q.name e) } := by
    have hstep : p.step 0 { state := x } q =
        { state := (q.run x).state, calls := 1, error := some (.pass 0 q.name e) } := by
      simp [step, he]
    unfold Pipeline.round
    rw [hp, List.foldl_cons, hstep, foldl_step_failed qs (by simp)]
  obtain ⟨left, hleft⟩ := Nat.exists_eq_add_one.mpr p.roundLimit_pos
  unfold Pipeline.run
  rw [hx, hleft]
  simp [Pipeline.rounds, hround]

/-! ## One round -/

theorem step_eq {n : Nat} {s : Round σ} {q : Pass σ} (he : s.error = none)
    (hr : (q.run s.state).error = none) (hf : p.faultAt (q.run s.state).state = none) :
    p.step n s q =
      { s with
        state := (q.run s.state).state
        calls := s.calls + 1
        progress := s.progress || (q.run s.state).changed } := by
  unfold step
  simp [he, hr, hf]

theorem Keeps.steps (h : p.Keeps P) (n : Nat) (qs : List (Pass σ)) (hqs : ∀ q ∈ qs, q ∈ p.passes)
    (s : Round σ) (he : s.error = none) (hs : P s.state) :
    (qs.foldl (p.step n) s).error = none ∧ P (qs.foldl (p.step n) s).state ∧
      ((qs.foldl (p.step n) s).progress = false → s.progress = false ∧
        (qs.foldl (p.step n) s).state = s.state ∧ ∀ q ∈ qs, (q.run s.state).changed = false) := by
  induction qs generalizing s with
  | nil => exact ⟨he, hs, fun hp => ⟨hp, rfl, by simp⟩⟩
  | cons q qs ih =>
    have hq := hqs q List.mem_cons_self
    have hpass := h.pass q hq s.state hs
    rw [List.foldl_cons, step_eq he (h.runs q hq _ hs) (h.sound _ hpass)]
    have hlater := fun s' he' hs' => ih (fun r hr => hqs r (List.mem_cons_of_mem q hr)) s' he' hs'
    obtain ⟨herr, hP, hprog⟩ := hlater
      { s with
        state := (q.run s.state).state
        calls := s.calls + 1
        progress := s.progress || (q.run s.state).changed } he hpass
    refine ⟨herr, hP, fun hp => ?_⟩
    obtain ⟨hs', hstate, hall⟩ := hprog hp
    obtain ⟨hsp, hc⟩ := Bool.or_eq_false_iff.mp hs'
    -- nothing changed so far, so the later passes ran on the same state
    have hsame := h.still q hq _ hs hc
    refine ⟨hsp, hstate.trans hsame, fun r hr => ?_⟩
    rcases List.mem_cons.mp hr with rfl | hr
    · exact hc
    · have := hall r hr
      rwa [hsame] at this

theorem Keeps.round (h : p.Keeps P) (n : Nat) {x : σ} (hx : P x) :
    (p.round n x).error = none ∧ P (p.round n x).state ∧
      ((p.round n x).progress = false → (p.round n x).state = x ∧ p.Settled x) := by
  obtain ⟨herr, hP, hprog⟩ := h.steps n p.passes (fun _ hq => hq) { state := x } rfl hx
  exact ⟨herr, hP, fun hp => (hprog hp).2⟩

/-! ## The whole run -/

theorem rounds_succ {left n : Nat} {s : Run σ} (herr : (p.round n s.state).error = none) :
    p.rounds (left + 1) n s =
      if (p.round n s.state).progress then
        p.rounds left (n + 1)
          { state := (p.round n s.state).state, changed := true,
            calls := s.calls + (p.round n s.state).calls }
      else
        { s with
          state := (p.round n s.state).state
          calls := s.calls + (p.round n s.state).calls
          error := none } := by
  rw [Pipeline.rounds]
  simp only [herr, Option.isSome_none, Bool.false_eq_true, if_false]

theorem Keeps.rounds (h : p.Keeps P) (left n : Nat) (s : Run σ) (he : s.error = none)
    (hs : P s.state) :
    P (p.rounds left n s).state ∧ ((p.rounds left n s).error = none ∨
      (p.rounds left n s).error =
        some (.noFixpoint (HasGraph.graph (p.rounds left n s).state).name p.roundLimit)) := by
  induction left generalizing n s with
  | zero =>
    unfold Pipeline.rounds
    cases p.onLimit with
    | reject => exact ⟨hs, .inr rfl⟩
    | emit => exact ⟨hs, .inl he⟩
  | succ left ih =>
    obtain ⟨herr, hP, -⟩ := h.round n hs
    rw [rounds_succ herr]
    split
    · exact ih _ _ rfl hP
    · exact ⟨hP, .inl rfl⟩

/-- A run keeps what its passes keep, and fails at most since the rounds ran out. -/
theorem Keeps.run (h : p.Keeps P) {x : σ} (hx : P x) :
    P (p.run x).state ∧ ((p.run x).error = none ∨
      (p.run x).error =
        some (.noFixpoint (HasGraph.graph (p.run x).state).name p.roundLimit)) := by
  unfold Pipeline.run
  rw [h.sound x hx]
  exact h.rounds _ _ _ rfl hx

/-- When the rounds do not run out, it does not matter what would be done then. -/
theorem rounds_reject {left n : Nat} {s : Run σ}
    (h : ∀ name rounds, ({ p with onLimit := .reject }.rounds left n s).error ≠
      some (.noFixpoint name rounds)) :
    { p with onLimit := .reject }.rounds left n s = p.rounds left n s := by
  induction left generalizing n s with
  | zero =>
    unfold Pipeline.rounds at h
    exact absurd rfl (h _ _)
  | succ left ih =>
    have hround : { p with onLimit := .reject }.round n s.state = p.round n s.state := rfl
    unfold Pipeline.rounds at h ⊢
    rw [hround] at h ⊢
    by_cases he : (p.round n s.state).error.isSome
    · simp only [he, if_true]
    · by_cases hp : (p.round n s.state).progress
      · simp only [he, hp, if_true, if_false, Bool.false_eq_true] at h ⊢
        exact ih h
      · simp only [he, hp, if_false, Bool.false_eq_true]

theorem Converges.run_reject {x : σ} (hc : p.Converges x) :
    { p with onLimit := .reject }.run x = p.run x := by
  have hfault : { p with onLimit := .reject }.faultAt x = p.faultAt x := rfl
  unfold Converges Pipeline.run at hc
  unfold Pipeline.run
  rw [hfault] at hc ⊢
  cases hf : p.faultAt x with
  | some v => rfl
  | none =>
    simp only [hf] at hc
    exact rounds_reject hc

theorem Keeps.settled_rounds (h : p.Keeps P) (hreject : p.onLimit = .reject) (left n : Nat)
    (s : Run σ) (he : s.error = none) (hs : P s.state)
    (hend : ∀ name rounds, (p.rounds left n s).error ≠ some (.noFixpoint name rounds)) :
    p.Settled (p.rounds left n s).state := by
  induction left generalizing n s with
  | zero =>
    unfold Pipeline.rounds at hend
    rw [hreject] at hend
    exact absurd rfl (hend _ _)
  | succ left ih =>
    obtain ⟨herr, hP, hprog⟩ := h.round n hs
    rw [rounds_succ herr] at hend ⊢
    split at hend
    · rename_i hp
      rw [if_pos hp]
      exact ih _ _ rfl hP hend
    · rename_i hp
      rw [if_neg hp]
      obtain ⟨hsame, hsettled⟩ := hprog (by simpa using hp)
      dsimp only
      rw [hsame]
      exact hsettled

/-- A run whose rounds do not run out does not fail, and ends where no pass says it
changes anything. -/
theorem Keeps.settled (h : p.Keeps P) {x : σ} (hx : P x) (hc : p.Converges x) :
    (p.run x).error = none ∧ p.Settled (p.run x).state := by
  have hsound : { p with onLimit := .reject }.faultAt x = none := h.sound x hx
  have hkeeps : Keeps { p with onLimit := .reject } P := ⟨h.sound, h.runs, h.pass, h.still⟩
  rw [← hc.run_reject]
  constructor
  · rcases (hkeeps.run hx).2 with hnone | hout
    · exact hnone
    · exact absurd hout (hc _ _)
  · unfold Converges at hc
    unfold Pipeline.run at hc ⊢
    rw [hsound] at hc ⊢
    exact hkeeps.settled_rounds rfl _ _ _ rfl hx hc

end FlowGraph.Pipeline

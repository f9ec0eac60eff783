import FlowGraph.Proofs.Lists
import FlowGraph.Proofs.Pipeline

/-!
The calls that a run makes, whatever its passes do. A pass that notes its calls
runs as the pass itself does, so a run with such passes leaves the list of all
calls behind. It is made of rounds that each changed something, and then of the
calls of a last round, which changed nothing, or was cut off by a failure, or
was not made since the rounds had run out.
-/

namespace FlowGraph

/-! ## Passes that note their calls -/

/-- A call of a pass: what it was called on and what it gave back. -/
structure Call (σ : Type) where
  pass : Pass σ
  before : σ
  result : PassResult σ

/-- What passes run over, with the calls made so far. -/
structure Logged (σ : Type) where
  state : σ
  log : List (Call σ) := []

instance {σ : Type} [HasGraph σ] : HasGraph (Logged σ) := ⟨fun x => HasGraph.graph x.state⟩

/-- The pass, when it notes its calls. -/
def Pass.logged {σ : Type} (q : Pass σ) : Pass (Logged σ) where
  name := q.name
  run x :=
    let r := q.run x.state
    { state := { state := r.state, log := x.log ++ [{ pass := q, before := x.state, result := r }] }
      changed := r.changed
      error := r.error }

def Round.plain {σ : Type} (s : Round (Logged σ)) : Round σ :=
  { state := s.state.state, progress := s.progress, calls := s.calls, error := s.error }

def Run.plain {σ : Type} (s : Run (Logged σ)) : Run σ :=
  { state := s.state.state, changed := s.changed, calls := s.calls, error := s.error }

/-- Calls in a row: the first is on `x`, each other on what the one before left, and the
last leaves `y`. -/
inductive Call.Row {σ : Type} : σ → List (Call σ) → σ → Prop
  | nil (x : σ) : Row x [] x
  | cons {x y : σ} {cs : List (Call σ)} (q : Pass σ) (h : Row (q.run x).state cs y) :
      Row x ({ pass := q, before := x, result := q.run x } :: cs) y

theorem Call.Row.append {σ : Type} {x y z : σ} {cs ds : List (Call σ)} (h : Row x cs y)
    (h' : Row y ds z) : Row x (cs ++ ds) z := by
  induction h with
  | nil => exact h'
  | cons q _ ih => exact .cons q (ih h')

namespace Pipeline

variable {σ : Type}

/-- The pipeline, when its passes note their calls. -/
def logged (p : Pipeline σ) : Pipeline (Logged σ) where
  passes := p.passes.map Pass.logged
  maxRounds := p.maxRounds
  onLimit := p.onLimit
  verify := p.verify

variable [HasGraph σ] (p : Pipeline σ)

/-- The calls that a run makes, in order, as its passes note them. -/
def log (x : σ) : List (Call σ) := (p.logged.run { state := x }).state.log

/-- The calls of round `k`: in each round the passes take turns. -/
def callsIn (x : σ) (k : Nat) : List (Call σ) :=
  ((p.log x).drop (k * p.passes.length)).take p.passes.length

/-! ## Notes do not disturb a run -/

@[simp] theorem faultAt_logged (x : Logged σ) : p.logged.faultAt x = p.faultAt x.state := rfl

theorem step_logged (n : Nat) (s : Round (Logged σ)) (q : Pass σ) :
    (p.logged.step n s q.logged).plain = p.step n s.plain q := by
  unfold step
  cases hs : s.error with
  | some e => simp [Round.plain, hs]
  | none =>
    cases hr : (q.run s.state.state).error with
    | some e => simp [Round.plain, Pass.logged, hs, hr]
    | none =>
      cases hf : p.faultAt (q.run s.state.state).state with
      | some v => simp [Round.plain, Pass.logged, hs, hr, hf]
      | none => simp [Round.plain, Pass.logged, hs, hr, hf]

theorem round_logged (n : Nat) (x : Logged σ) :
    (p.logged.round n x).plain = p.round n x.state := by
  have hfold : ∀ (qs : List (Pass σ)) (s : Round (Logged σ)),
      ((qs.map Pass.logged).foldl (p.logged.step n) s).plain = qs.foldl (p.step n) s.plain := by
    intro qs
    induction qs with
    | nil => exact fun _ => rfl
    | cons q qs ih =>
      intro s
      rw [List.map_cons, List.foldl_cons, List.foldl_cons, ih, step_logged]
  exact hfold p.passes { state := x }

theorem rounds_logged (left n : Nat) (s : Run (Logged σ)) :
    (p.logged.rounds left n s).plain = p.rounds left n s.plain := by
  induction left generalizing n s with
  | zero =>
    have hlimit : p.logged.onLimit = p.onLimit := rfl
    unfold rounds
    rw [hlimit]
    cases p.onLimit with
    | reject => rfl
    | emit => rfl
  | succ left ih =>
    have hround : (p.logged.round n s.state).plain = p.round n s.plain.state :=
      p.round_logged n s.state
    unfold rounds
    rw [← hround]
    dsimp only [Round.plain]
    split
    · rfl
    · split
      · exact ih _ _
      · rfl

/-- A run with notes is the run without them. -/
theorem run_logged (x : Logged σ) : (p.logged.run x).plain = p.run x.state := by
  unfold run
  rw [faultAt_logged]
  cases p.faultAt x.state with
  | some v => rfl
  | none => exact p.rounds_logged _ _ _

/-! ## Failures -/

/-- The call fails, or the check after it does. -/
def Fails (c : Call σ) : Prop := c.result.error ≠ none ∨ p.faultAt c.result.state ≠ none

/-- The failure of a run at a call of round `n`. -/
def failure? (n : Nat) (c : Call σ) : Option PipelineError :=
  match c.result.error with
  | some e => some (.pass n c.pass.name e)
  | none => (p.faultAt c.result.state).map (.after n c.pass.name)

variable {p}

theorem failure?_eq_none {n : Nat} {c : Call σ} : p.failure? n c = none ↔ ¬ p.Fails c := by
  unfold failure? Fails
  cases c.result.error with
  | some e => simp
  | none => simp

/-- The rounds do not run out by the failure of a call. -/
theorem failure?_ne_noFixpoint {n : Nat} {c : Call σ} (f : String) (k : Nat) :
    p.failure? n c ≠ some (.noFixpoint f k) := by
  unfold failure?
  cases c.result.error with
  | some e => simp
  | none => simp

/-- Each call is on a state that passes the check, as long as only the last one may fail. -/
theorem faultAt_before {x y : σ} {cs : List (Call σ)} (h : Call.Row x cs y)
    (hx : p.faultAt x = none) (hcs : ∀ c ∈ cs.dropLast, ¬ p.Fails c) : ∀ c ∈ cs, p.faultAt c.before = none := by
  induction h with
  | nil => simp
  | @cons x y cs q h ih =>
    intro c hc
    rcases List.mem_cons.mp hc with rfl | hc
    · exact hx
    · have hne := List.ne_nil_of_mem hc
      rw [List.dropLast_cons_of_ne_nil hne] at hcs
      obtain ⟨hq, hcs⟩ := List.forall_mem_cons.mp hcs
      exact ih (by simpa using (not_or.mp hq).2) hcs c hc

/-- A row of calls of which none fails ends at a state that passes the check. -/
theorem faultAt_after {x y : σ} {cs : List (Call σ)} (h : Call.Row x cs y) (hx : p.faultAt x = none)
    (hcs : ∀ c ∈ cs, ¬ p.Fails c) : p.faultAt y = none := by
  induction h with
  | nil => exact hx
  | cons q h ih =>
    obtain ⟨hq, hcs⟩ := List.forall_mem_cons.mp hcs
    exact ih (by simpa using (not_or.mp hq).2) hcs

/-! ## One round -/

variable (p)

/-- What calls of the passes `qs` in round `n` come to: all are made and none fails, or they
end with the first that does. -/
inductive Made (n : Nat) (qs : List (Pass σ)) : List (Call σ) → Option PipelineError → Prop
  | all {cs : List (Call σ)} (passes : cs.map (·.pass) = qs) (ok : ∀ c ∈ cs, ¬ p.Fails c) :
      Made n qs cs none
  | cut {cs : List (Call σ)} {c : Call σ} {e : PipelineError}
      (passes : (cs ++ [c]).map (·.pass) <+: qs) (ok : ∀ d ∈ cs, ¬ p.Fails d)
      (fails : p.failure? n c = some e) : Made n qs (cs ++ [c]) (some e)

variable {p}

theorem Made.cons {n : Nat} {c : Call σ} {qs : List (Pass σ)} {cs : List (Call σ)}
    {e : Option PipelineError} (h : p.Made n qs cs e) (hc : ¬ p.Fails c) :
    p.Made n (c.pass :: qs) (c :: cs) e := by
  cases h with
  | all passes ok => exact .all (congrArg _ passes) (List.forall_mem_cons.mpr ⟨hc, ok⟩)
  | @cut cs d e passes ok fails =>
    rw [← List.cons_append]
    exact .cut (List.cons_prefix_cons.mpr ⟨rfl, passes⟩) (List.forall_mem_cons.mpr ⟨hc, ok⟩) fails

theorem step_note {n : Nat} {s : Round (Logged σ)} (he : s.error = none) (q : Pass σ) :
    (p.logged.step n s q.logged).state =
        { state := (q.run s.state.state).state
          log := s.state.log ++
            [{ pass := q, before := s.state.state, result := q.run s.state.state }] } ∧
      (p.logged.step n s q.logged).error =
        p.failure? n { pass := q, before := s.state.state, result := q.run s.state.state } ∧
      ((p.logged.step n s q.logged).error = none →
        (p.logged.step n s q.logged).progress =
          (s.progress || (q.run s.state.state).changed)) := by
  unfold step failure?
  cases hr : (q.run s.state.state).error with
  | some e => simp [Pass.logged, he, hr]
  | none =>
    cases hf : p.faultAt (q.run s.state.state).state with
    | some v => simp [Pass.logged, he, hr, hf]
    | none => simp [Pass.logged, he, hr, hf]

theorem foldl_made (n : Nat) (qs : List (Pass σ)) (s : Round (Logged σ)) (he : s.error = none) :
    ∃ cs y, Call.Row s.state.state cs y ∧
      ((qs.map Pass.logged).foldl (p.logged.step n) s).state =
        { state := y, log := s.state.log ++ cs } ∧
      p.Made n qs cs ((qs.map Pass.logged).foldl (p.logged.step n) s).error ∧
      (((qs.map Pass.logged).foldl (p.logged.step n) s).error = none →
        ((qs.map Pass.logged).foldl (p.logged.step n) s).progress =
          (s.progress || cs.any (·.result.changed))) := by
  induction qs generalizing s with
  | nil => exact ⟨[], s.state.state, .nil _, by simp, he ▸ .all rfl (by simp), by simp⟩
  | cons q qs ih =>
    obtain ⟨hstate, herror, hprogress⟩ := step_note (p := p) (n := n) he q
    rw [List.map_cons, List.foldl_cons]
    generalize p.logged.step n s q.logged = t at *
    generalize hc :
      ({ pass := q, before := s.state.state, result := q.run s.state.state } : Call σ) = c at *
    have hpass : c.pass = q := by rw [← hc]
    have hresult : c.result = q.run s.state.state := by rw [← hc]
    cases hf : p.failure? n c with
    | some e =>
      -- nothing is called after the failure
      rw [hf] at herror
      rw [foldl_step_failed _ (by simp [herror]), herror, hstate]
      have hcut : p.Made n (q :: qs) ([] ++ [c]) (some e) := .cut (by simp [hpass]) (by simp) hf
      exact ⟨[c], _, hc ▸ .cons q (.nil _), rfl, hcut, by simp⟩
    | none =>
      rw [hf] at herror
      obtain ⟨cs, y, hrow, hleft, hmade, htold⟩ := ih t herror
      rw [hstate] at hrow hleft
      refine ⟨c :: cs, y, hc ▸ .cons q hrow, ?_, ?_, ?_⟩
      · rw [hleft, List.append_assoc]
        rfl
      · exact hpass ▸ hmade.cons (failure?_eq_none.mp hf)
      · intro hnone
        rw [htold hnone, hprogress herror, List.any_cons, hresult, Bool.or_assoc]

/-- A round makes calls of its passes, up to the first that fails. -/
theorem round_made (n : Nat) (x : Logged σ) :
    ∃ cs y, Call.Row x.state cs y ∧
      (p.logged.round n x).state = { state := y, log := x.log ++ cs } ∧
      p.Made n p.passes cs (p.logged.round n x).error ∧
      ((p.logged.round n x).error = none →
        (p.logged.round n x).progress = cs.any (·.result.changed)) := by
  obtain ⟨cs, y, hrow, hstate, hmade, hprogress⟩ :=
    foldl_made (p := p) n p.passes { state := x } rfl
  refine ⟨cs, y, hrow, hstate, hmade, fun hnone => ?_⟩
  rw [← Bool.false_or (cs.any _)]
  exact hprogress hnone

/-! ## The whole run -/

variable (p)

/-- The calls are those of a whole round, and none of them fails. -/
structure Finished (cs : List (Call σ)) : Prop where
  passes : cs.map (·.pass) = p.passes
  ok : ∀ c ∈ cs, ¬ p.Fails c

/-- How a run ends at `y` once `k` rounds were made that each changed something, out of so
many that may be made: the rounds have run out, or one more is made, which changes nothing or
fails. -/
inductive EndsAt (y : σ) (k limit : Nat) : List (Call σ) → Option PipelineError → Prop
  | emitted (out : k = limit) (policy : p.onLimit = .emit) : EndsAt y k limit [] none
  | rejected (out : k = limit) (policy : p.onLimit = .reject) :
      EndsAt y k limit [] (some (.noFixpoint (HasGraph.graph y).name p.roundLimit))
  | settled {last : List (Call σ)} (more : k < limit) (finished : p.Finished last)
      (quiet : ∀ c ∈ last, c.result.changed = false) : EndsAt y k limit last none
  | failed {cs : List (Call σ)} {c : Call σ} {e : PipelineError} (more : k < limit)
      (passes : (cs ++ [c]).map (·.pass) <+: p.passes) (ok : ∀ d ∈ cs, ¬ p.Fails d)
      (fails : p.failure? k c = some e) : EndsAt y k limit (cs ++ [c]) (some e)

/-- The rounds that a run made before it ended: each was finished and changed something. -/
def Moved (rs : List (List (Call σ))) : Prop :=
  ∀ r ∈ rs, p.Finished r ∧ ∃ c ∈ r, c.result.changed = true

variable {p}

theorem rounds_course (left n : Nat) (s : Run (Logged σ)) (he : s.error = none) :
    ∃ rs last y, Call.Row s.state.state (rs.flatten ++ last) y ∧ p.Moved rs ∧
      (p.logged.rounds left n s).state =
        { state := y, log := s.state.log ++ (rs.flatten ++ last) } ∧
      (p.logged.rounds left n s).changed = (s.changed || !rs.isEmpty) ∧
      p.EndsAt y (n + rs.length) (n + left) last (p.logged.rounds left n s).error := by
  -- on the rounds that are left
  induction left generalizing n s with
  | zero =>
    have hlimit : p.logged.onLimit = p.onLimit := rfl
    refine ⟨[], [], s.state.state, .nil _, by simp [Moved], ?_⟩
    unfold rounds
    rw [hlimit]
    cases hpolicy : p.onLimit with
    | emit => exact ⟨by simp, by simp, he ▸ .emitted rfl hpolicy⟩
    | reject => exact ⟨by simp, by simp, .rejected rfl hpolicy⟩
  | succ left ih =>
    obtain ⟨cs, y, hrow, hstate, hmade, hprogress⟩ := round_made (p := p) n s.state
    unfold rounds
    generalize p.logged.round n s.state = r at *
    dsimp only
    generalize hrerror : r.error = e at *
    cases hmade with
    | @cut cs c e passes ok fails =>
      refine ⟨[], cs ++ [c], y, hrow, by simp [Moved], ?_⟩
      rw [if_pos Option.isSome_some]
      exact ⟨hstate, by simp, .failed (by simp) passes ok fails⟩
    | all passes ok =>
      rw [if_neg (by simp), hprogress rfl]
      by_cases hany : cs.any (·.result.changed) = true
      · -- the round changed something, so there is a next one
        rw [if_pos hany]
        obtain ⟨rs, last, z, hrow', hmoved, hstate', hchanged, hends⟩ :=
          ih (n + 1) { s with
            state := r.state, calls := s.calls + r.calls, error := none, changed := true } rfl
        rw [hstate] at hrow' hstate'
        refine ⟨cs :: rs, last, z, ?_, ?_, ?_, ?_, ?_⟩
        · rw [List.flatten_cons, List.append_assoc]
          exact hrow.append hrow'
        · exact List.forall_mem_cons.mpr ⟨⟨⟨passes, ok⟩, List.any_eq_true.mp hany⟩, hmoved⟩
        · rw [hstate, hstate', List.flatten_cons, List.append_assoc, List.append_assoc]
        · rw [hchanged]
          simp
        · have hcount : n + (cs :: rs).length = n + 1 + rs.length := by
            rw [List.length_cons]
            omega
          have hlimit : n + (left + 1) = n + 1 + left := by omega
          rw [hcount, hlimit]
          exact hends
      · rw [if_neg hany]
        have hquiet : ∀ c ∈ cs, c.result.changed = false := by simpa using hany
        exact ⟨[], cs, y, hrow, by simp [Moved], hstate, by simp,
          .settled (by simp) ⟨passes, ok⟩ hquiet⟩

/-- A run that is not refused makes rounds that each change something, and then it ends. -/
theorem run_course {x : σ} (hx : p.faultAt x = none) :
    ∃ rs last, p.log x = rs.flatten ++ last ∧ p.Moved rs ∧
      Call.Row x (p.log x) (p.run x).state ∧ (p.run x).changed = !rs.isEmpty ∧
      p.EndsAt (p.run x).state rs.length p.roundLimit last (p.run x).error := by
  have hlogged : p.logged.run { state := x } =
      p.logged.rounds p.roundLimit 0 { state := { state := x } } := by
    unfold run
    rw [faultAt_logged, hx]
    rfl
  obtain ⟨rs, last, y, hrow, hmoved, hstate, hchanged, hends⟩ :=
    rounds_course (p := p) p.roundLimit 0 { state := { state := x } } rfl
  have hplain := p.run_logged { state := x }
  have hlog : p.log x = rs.flatten ++ last := by
    unfold log
    rw [hlogged, hstate]
    rfl
  rw [← hlogged] at hstate hchanged hends
  rw [← hplain, hlog]
  refine ⟨rs, last, rfl, hmoved, ?_, ?_, ?_⟩
  · show Call.Row x _ (p.logged.run { state := x }).state.state
    rw [hstate]
    exact hrow
  · exact hchanged.trans (by simp)
  · show p.EndsAt (p.logged.run { state := x }).state.state _ _ _
      (p.logged.run { state := x }).error
    rw [hstate]
    simpa using hends

/-- A run that is refused makes no call. -/
theorem run_refused {x : σ} {v : Violation} (hx : p.faultAt x = some v) :
    p.log x = [] ∧ p.run x = { state := x, error := some (.input v) } := by
  unfold log run
  rw [faultAt_logged, hx]
  exact ⟨rfl, rfl⟩

/-! ## The calls of each round -/

theorem Finished.length {cs : List (Call σ)} (h : p.Finished cs) : cs.length = p.passes.length := by
  rw [← h.passes, List.length_map]

theorem EndsAt.length_le {y : σ} {k limit : Nat} {last : List (Call σ)} {e : Option PipelineError}
    (h : p.EndsAt y k limit last e) : last.length ≤ p.passes.length := by
  cases h with
  | emitted | rejected => exact Nat.zero_le _
  | settled more finished quiet => exact Nat.le_of_eq finished.length
  | failed more passes ok fails =>
    have := passes.length_le
    rwa [List.length_map] at this

section Rounds

variable {x : σ} {rs : List (List (Call σ))} {last : List (Call σ)}

theorem callsIn_eq (hlog : p.log x = rs.flatten ++ last) (hmoved : p.Moved rs)
    (hlast : last.length ≤ p.passes.length) (k : Nat) :
    p.callsIn x k = ((rs ++ [last])[k]?).getD [] := by
  unfold callsIn
  rw [hlog]
  exact take_drop_flatten (fun r hr => (hmoved r hr).1.length) hlast k

/-- A round that the run made and that is not its last changed something. -/
theorem callsIn_of_lt (hlog : p.log x = rs.flatten ++ last) (hmoved : p.Moved rs)
    (hlast : last.length ≤ p.passes.length) {k : Nat} (hk : k < rs.length) :
    p.Finished (p.callsIn x k) ∧ ∃ c ∈ p.callsIn x k, c.result.changed = true := by
  rw [callsIn_eq hlog hmoved hlast, List.getElem?_append_left hk, List.getElem?_eq_getElem hk]
  exact hmoved _ (List.getElem_mem hk)

theorem callsIn_length (hlog : p.log x = rs.flatten ++ last) (hmoved : p.Moved rs)
    (hlast : last.length ≤ p.passes.length) : p.callsIn x rs.length = last := by
  rw [callsIn_eq hlog hmoved hlast]
  simp

theorem Moved.ok (h : p.Moved rs) : ∀ c ∈ rs.flatten, ¬ p.Fails c := by
  intro c hc
  obtain ⟨r, hr, hc⟩ := List.mem_flatten.mp hc
  exact (h r hr).1.ok c hc

end Rounds

end Pipeline

end FlowGraph

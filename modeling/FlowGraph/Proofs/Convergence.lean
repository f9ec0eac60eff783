import Mathlib.Data.List.Chain
import Mathlib.Data.List.Range
import FlowGraph.Proofs.Calls
import FlowGraph.Proofs.NormalForm
import FlowGraph.Settings

/-!
How many rounds a run needs. Each round but the last takes out a block, so a
graph needs at most as many rounds as it has blocks. No smaller number will
do: in a row of blocks that pass a run on from the entry, a round moves the
entry by one block and takes out no other.
-/

namespace FlowGraph

namespace Pipeline

/-! ## The rounds of a run -/

section Rounds

variable {σ : Type} [HasGraph σ] {p : Pipeline σ} {P : σ → Prop} {size : σ → Nat}

/-- The rounds that are made from a state, when so many are left: each with the state it
starts from. There is a next one after a round that did not fail and changed something. -/
def roundsFrom (p : Pipeline σ) : Nat → Nat → σ → List (σ × Round σ)
  | 0, _, _ => []
  | left + 1, n, x =>
    let r := p.round n x
    (x, r) :: if r.error.isNone && r.progress then p.roundsFrom left (n + 1) r.state else []

/-- The rounds that a run makes, each with the state it starts from. -/
def history (p : Pipeline σ) (x : σ) : List (σ × Round σ) :=
  match p.faultAt x with
  | some _ => []
  | none => p.roundsFrom p.roundLimit 0 x

/-- What is left when passes are called in a row. -/
def leave (qs : List (Pass σ)) (x : σ) : σ := qs.foldl (fun x q => (q.run x).state) x

theorem Keeps.after_calls (h : p.Keeps P) {qs : List (Pass σ)} (hqs : ∀ q ∈ qs, q ∈ p.passes) {x : σ}
    (hx : P x) : P (leave qs x) := by
  induction qs generalizing x with
  | nil => exact hx
  | cons q qs ih =>
    rw [List.forall_mem_cons] at hqs
    exact ih hqs.2 (h.pass q hqs.1 x hx)

theorem Keeps.foldl_step (h : p.Keeps P) (n : Nat) (qs : List (Pass σ))
    (hqs : ∀ q ∈ qs, q ∈ p.passes) (s : Round σ) (he : s.error = none) (hs : P s.state) :
    qs.foldl (p.step n) s =
      { state := leave qs s.state
        progress := s.progress || (Pass.calls qs s.state).any (·.2.changed)
        calls := s.calls + qs.length
        error := none } := by
  induction qs generalizing s with
  | nil => simp [leave, Pass.calls, ← he]
  | cons q qs ih =>
    have hq := hqs q List.mem_cons_self
    have hpass := h.pass q hq s.state hs
    rw [List.foldl_cons, step_eq he (h.runs q hq _ hs) (h.sound _ hpass)]
    have hlater := ih (fun r hr => hqs r (List.mem_cons_of_mem q hr))
      { s with
        state := (q.run s.state).state
        calls := s.calls + 1
        progress := s.progress || (q.run s.state).changed } he hpass
    rw [hlater]
    simp [leave, Pass.calls, Bool.or_assoc, Nat.add_comm, Nat.add_left_comm]

/-- A round calls the passes in a row. -/
theorem Keeps.round_eq (h : p.Keeps P) (n : Nat) {x : σ} (hx : P x) :
    p.round n x =
      { state := leave p.passes x
        progress := (Pass.calls p.passes x).any (·.2.changed)
        calls := p.passes.length
        error := none } := by
  unfold Pipeline.round
  rw [h.foldl_step n p.passes (fun _ hq => hq) _ rfl hx]
  simp

/-- The passes keep a property, and each that says it changes a state makes it smaller.
No state with the property is of size zero. -/
structure Lowers (p : Pipeline σ) (P : σ → Prop) (size : σ → Nat) : Prop where
  keeps : p.Keeps P
  lowers : ∀ q ∈ p.passes, ∀ x, P x → (q.run x).changed = true → size (q.run x).state < size x
  pos : ∀ x, P x → 0 < size x

theorem Lowers.calls (h : p.Lowers P size) (qs : List (Pass σ)) (hqs : ∀ q ∈ qs, q ∈ p.passes)
    {x : σ} (hx : P x) :
    size (leave qs x) ≤ size x ∧
      ((Pass.calls qs x).any (·.2.changed) = true → size (leave qs x) < size x) := by
  induction qs generalizing x with
  | nil => simp [leave, Pass.calls]
  | cons q qs ih =>
    have hq := hqs q List.mem_cons_self
    obtain ⟨hle, hlt⟩ := ih (fun r hr => hqs r (List.mem_cons_of_mem q hr))
      (h.keeps.pass q hq x hx)
    have hleave : leave (q :: qs) x = leave qs (q.run x).state := rfl
    have hcalls : Pass.calls (q :: qs) x = (x, q.run x) :: Pass.calls qs (q.run x).state := rfl
    rw [hleave, hcalls, List.any_cons]
    -- the state gets smaller with the first call, or the first call changed nothing
    by_cases hc : (q.run x).changed = true
    · have hfirst := h.lowers q hq x hx hc
      exact ⟨by omega, fun _ => by omega⟩
    · simp only [Bool.not_eq_true] at hc
      have hsame := h.keeps.still q hq x hx hc
      rw [hsame] at hle hlt ⊢
      rw [hc, Bool.false_or]
      exact ⟨hle, hlt⟩

/-- When a round changes nothing it leaves what it started from. -/
theorem Keeps.leave_of_quiet (h : p.Keeps P) {x : σ} (hx : P x)
    (hquiet : (Pass.calls p.passes x).any (·.2.changed) = false) : leave p.passes x = x := by
  have hround := (h.round 0 hx).2.2
  rw [h.round_eq 0 hx] at hround
  exact (hround hquiet).1

theorem Keeps.rounds_of_quiet (h : p.Keeps P) (left n : Nat) {s : Run σ} (hs : P s.state)
    (hquiet : (Pass.calls p.passes s.state).any (·.2.changed) = false) :
    p.roundsFrom (left + 1) n s.state = [(s.state, p.round n s.state)] ∧
      (p.round n s.state).state = s.state ∧
      p.rounds (left + 1) n s =
        { s with calls := s.calls + p.passes.length, error := none } := by
  have hround := h.round_eq n hs
  rw [hquiet, h.leave_of_quiet hs hquiet] at hround
  refine ⟨?_, by rw [hround], ?_⟩
  · unfold roundsFrom
    simp [hround]
  · rw [rounds_succ (by rw [hround]), hround]
    rfl

/-- From a state of a size that is at most the number of rounds left, a run makes rounds
that lower the size and then one that changes nothing, and ends there. -/
theorem Lowers.rounds (h : p.Lowers P size) (left n : Nat) (s : Run σ) (hs : P s.state)
    (hleft : size s.state ≤ left) :
    ∃ earlier last, p.roundsFrom left n s.state = earlier ++ [last] ∧
      (∀ r ∈ earlier, size r.2.state < size r.1) ∧
      P last.1 ∧ last.2.state = last.1 ∧
      (Pass.calls p.passes last.1).any (·.2.changed) = false ∧
      p.rounds left n s =
        { state := last.1
          changed := s.changed || !earlier.isEmpty
          calls := s.calls + (earlier.length + 1) * p.passes.length
          error := none } := by
  induction left generalizing n s with
  | zero =>
    have := h.pos s.state hs
    omega
  | succ left ih =>
    have hround := h.keeps.round_eq n hs
    by_cases hany : (Pass.calls p.passes s.state).any (·.2.changed) = true
    · -- the round made the state smaller, so the rounds that are left suffice for it
      have hlt := (h.calls p.passes (fun _ hq => hq) hs).2 hany
      have hP : P (leave p.passes s.state) := by
        have := (h.keeps.round n hs).2.1
        rwa [hround] at this
      have hrun : p.rounds (left + 1) n s = _ := rounds_succ (by rw [hround])
      have hmade : p.roundsFrom (left + 1) n s.state =
          (s.state, p.round n s.state) :: p.roundsFrom left (n + 1) (leave p.passes s.state) := by
        rw [roundsFrom]
        simp [hround, hany]
      rw [hround] at hrun
      simp only [hany, if_true] at hrun
      obtain ⟨earlier, last, hfrom, hlower, hlast, hstate, hquiet, hend⟩ := ih (n + 1)
        { state := leave p.passes s.state, changed := true, calls := s.calls + p.passes.length }
        hP (by dsimp only; omega)
      refine ⟨(s.state, p.round n s.state) :: earlier, last, ?_, ?_, hlast, hstate, hquiet, ?_⟩
      · rw [hmade, hfrom]
        rfl
      · intro r hr
        rcases List.mem_cons.mp hr with rfl | hr
        · rw [hround]
          exact hlt
        · exact hlower r hr
      · have hcount : s.calls + p.passes.length + (earlier.length + 1) * p.passes.length =
            s.calls + (earlier.length + 1 + 1) * p.passes.length := by
          rw [Nat.succ_mul (earlier.length + 1)]
          omega
        rw [hrun, hend]
        simp [hcount]
    · simp only [Bool.not_eq_true] at hany
      obtain ⟨hmade, hstate, hrun⟩ := h.keeps.rounds_of_quiet left n hs hany
      refine ⟨[], (s.state, p.round n s.state), hmade, by simp, hs, hstate, hany, ?_⟩
      rw [hrun]
      simp

/-- A run from a state of a size that is at most the limit ends well, and a second run
from where it ends makes one round only. -/
theorem Lowers.run (h : p.Lowers P size) {x : σ} (hx : P x) (hlimit : size x ≤ p.roundLimit) :
    ∃ earlier last, p.history x = earlier ++ [last] ∧
      (∀ r ∈ earlier, size r.2.state < size r.1) ∧ last.2.state = last.1 ∧
      (Pass.calls p.passes last.1).any (·.2.changed) = false ∧
      p.run x =
        { state := last.1, changed := !earlier.isEmpty
          calls := (earlier.length + 1) * p.passes.length } ∧
      p.run last.1 = { state := last.1, calls := p.passes.length } := by
  obtain ⟨earlier, last, hmade, hlower, hlast, hstate, hquiet, hend⟩ :=
    h.rounds p.roundLimit 0 { state := x } hx hlimit
  refine ⟨earlier, last, ?_, hlower, hstate, hquiet, ?_, ?_⟩
  · unfold history
    rw [h.keeps.sound x hx]
    exact hmade
  · unfold Pipeline.run
    rw [h.keeps.sound x hx]
    refine hend.trans ?_
    simp
  · obtain ⟨left, hleft⟩ : ∃ left, p.roundLimit = left + 1 :=
      Nat.exists_eq_add_one.mpr (Nat.lt_of_lt_of_le (h.pos x hx) hlimit)
    unfold Pipeline.run
    rw [h.keeps.sound last.1 hlast, hleft]
    refine (h.keeps.rounds_of_quiet left 0 (s := { state := last.1 }) hlast hquiet).2.2.trans ?_
    simp

end Rounds

/-- On well-formed graphs each registered pass that says so takes blocks out. -/
theorem lowers_registered {p : Pipeline Graph} (hp : ∀ q ∈ p.passes, q ∈ registeredPasses) :
    p.Lowers Graph.WellFormed (fun g => g.order.length) where
  keeps := keeps_wellFormed hp
  lowers q hq _ hg hc := (hg.sound_run (hp q hq)).changed.mp hc
  pos _ hg := by
    obtain ⟨e, he, -⟩ := hg.entry
    exact List.length_pos_of_mem he

end Pipeline

/-! ## Rows of blocks -/

namespace Graph

/-- When the entry comes first and passes a run on, a call takes out the entry only. -/
theorem WellFormed.eliminateEmpty_entry {g : Graph} (h : g.WellFormed) {e t : BlockId}
    {rest : List BlockId} (ho : g.order = e :: rest) (he : g.entry = some e)
    (ht : g.passTarget? e = some t) (hne : t ≠ e) :
    g.Bypassing [e] (divert e t) ∧ g.eliminateEmpty.state = g.bypassed [e] (divert e t) ∧
      g.eliminateEmpty.changed = true ∧ g.eliminateEmpty.error = none := by
  have hmem : e ∈ g.order := by simp [ho]
  have hin := h.passTarget?_inside hmem ht
  have hb : g.Bypassing [e] (divert e t) :=
    (Bypassing.nil g).take List.not_mem_nil hmem ht hne
  obtain ⟨b, hblock, hid, -, hsome⟩ := h.passTarget?_retarget hmem (fun b => b)
  obtain ⟨i, hi, htargets⟩ := hsome t ht
  have hscan : Bypass.scan { graph := g } g.order =
      .ok { graph := g.moved (divert e t), removed := [e] } := by
    have htake : Bypass.take { graph := g.retarget fun b => b } b t = _ :=
      take_spec h (fun _ hx => hx) hin
    rw [retarget_self] at hblock htake
    rw [hid, if_pos he] at htake
    rw [ho]
    unfold Bypass.scan
    simp only [hblock, hi, htargets, hid, hne, if_false, htake]
    -- the look stops here, with the entry moved to the target
    unfold Graph.moved
    rw [he, Option.map_some, divert, if_pos rfl]
    rfl
  exact ⟨hb, h.eliminateEmpty_of_scan hscan hb⟩

/-- The blocks of a graph in a row: the entry is the first, and each but the last passes
a run on to the next. -/
structure Row (g : Graph) : Prop where
  wellFormed : g.WellFormed
  entry : g.entry = g.order.head?
  passes : g.order.IsChain (fun a b => g.passTarget? a = some b)

/-- A path comes to every block of a row. -/
theorem Row.reaches {g : Graph} (h : g.Row) : ∀ b ∈ g.order, g.Reaches b := by
  apply h.passes.induction
  · intro a b hab ha
    exact .edge ha (passTarget?_mem_successors hab)
  · intro hne
    apply h.wellFormed.reaches_entry
    rw [h.entry, List.head?_eq_some_head hne]

/-- Taking out the first of a row leaves a row. -/
theorem Row.bypassed {g : Graph} (h : g.Row) {a b : BlockId} {rest : List BlockId}
    (ho : g.order = a :: b :: rest) (hb : g.Bypassing [a] (divert a b)) :
    (g.bypassed [a] (divert a b)).order = b :: rest ∧ (g.bypassed [a] (divert a b)).Row := by
  have hn := h.wellFormed.nodup
  rw [ho] at hn
  obtain ⟨ha, hn⟩ := List.nodup_cons.mp hn
  have hne : ∀ x ∈ b :: rest, x ≠ a := by
    rintro x hx rfl
    exact ha hx
  have horder : (g.bypassed [a] (divert a b)).order = b :: rest := by
    show g.order.filter (· ∉ [a]) = _
    rw [ho, List.filter_cons_of_neg (by simp), List.filter_eq_self]
    intro x hx
    simpa using hne x hx
  refine ⟨horder, hb.wellFormed h.wellFormed, ?_, ?_⟩
  · show g.entry.map (divert a b) = _
    rw [h.entry, ho, horder]
    simp [divert]
  · have hpasses := h.passes
    rw [ho] at hpasses
    rw [horder]
    apply (List.isChain_cons_cons.mp hpasses).2.imp_of_mem_imp
    intro x y hx hy hxy
    have hxo : x ∈ g.order := by rw [ho]; exact List.mem_cons_of_mem a hx
    rw [h.wellFormed.passTarget?_bypassed hxo (by simpa using hne x hx), hxy]
    simp [divert, hne y hy]

end Graph

namespace Pipeline

/-- A round of both passes takes out the first block of a row, and no other. -/
theorem round_of_row {p : Pipeline Graph} (hp : p.passes = registeredPasses) (n : Nat) {g : Graph}
    (hg : g.Row) {a b : BlockId} {rest : List BlockId} (ho : g.order = a :: b :: rest) :
    (p.round n g).error = none ∧ (p.round n g).progress = true ∧
      (p.round n g).state.order = b :: rest ∧ (p.round n g).state.Row ∧
      (p.round n g).state.name = g.name := by
  have hpass := hg.passes
  rw [ho] at hpass
  have ht := (List.isChain_cons_cons.mp hpass).1
  have hne : b ≠ a := by
    have hn := hg.wellFormed.nodup
    rw [ho] at hn
    rintro rfl
    exact (List.nodup_cons.mp hn).1 List.mem_cons_self
  obtain ⟨hb, hstate, hchanged, -⟩ :=
    hg.wellFormed.eliminateEmpty_entry ho (by rw [hg.entry, ho]; rfl) ht hne
  obtain ⟨horder, hrow⟩ := hg.bypassed ho hb
  -- the second pass finds nothing, since a path comes to every block that is left
  obtain ⟨dead, -, hdead, hkept, -, -⟩ := hrow.wellFormed.eliminateUnreachable
  have hnil : dead = [] := by
    apply List.eq_nil_iff_forall_not_mem.mpr
    intro x hx
    exact ((hdead x).mp hx).2 (hrow.reaches x ((hdead x).mp hx).1)
  rw [hnil, Graph.without_nil] at hkept
  have hkeeps := (lowers_registered (p := p) (by simp [hp])).keeps
  have hleave : leave p.passes g = g.bypassed [a] (divert a b) := by
    rw [hp]
    show (g.eliminateEmpty.state).eliminateUnreachable.state = _
    rw [hstate, hkept]
  rw [hkeeps.round_eq n hg.wellFormed]
  refine ⟨rfl, ?_, ?_, ?_, ?_⟩
  · rw [hp]
    show (g.eliminateEmpty.changed || _) = true
    rw [hchanged, Bool.true_or]
  · rw [hleave, horder]
  · rw [hleave]
    exact hrow
  · rw [hleave]
    rfl

theorem rounds_of_row {p : Pipeline Graph} (hp : p.passes = registeredPasses)
    (hreject : p.onLimit = .reject) (left n : Nat) (s : Run Graph) (hs : s.state.Row)
    (hlen : s.state.order.length = left + 1) :
    (p.rounds left n s).error = some (.noFixpoint s.state.name p.roundLimit) := by
  induction left generalizing n s with
  | zero =>
    unfold Pipeline.rounds
    rw [hreject]
    rfl
  | succ left ih =>
    obtain ⟨a, b, rest, ho⟩ : ∃ a b rest, s.state.order = a :: b :: rest := by
      rcases hs : s.state.order with _ | ⟨a, _ | ⟨b, rest⟩⟩
      · simp [hs] at hlen
      · simp [hs] at hlen
      · exact ⟨a, b, rest, rfl⟩
    obtain ⟨herr, hprogress, horder, hrow, hname⟩ := round_of_row hp n hs ho
    rw [rounds_succ herr, if_pos hprogress, ← hname]
    apply ih
    · exact hrow
    · rw [ho] at hlen
      rw [horder]
      simpa using hlen

/-- A row with one block more than there are rounds is rejected. -/
theorem run_of_row {p : Pipeline Graph} (hp : p.passes = registeredPasses)
    (hreject : p.onLimit = .reject) {g : Graph} (hg : g.Row)
    (hlen : g.order.length = p.roundLimit + 1) :
    (p.run g).error = some (.noFixpoint g.name p.roundLimit) := by
  have hsound := (lowers_registered (p := p) (by simp [hp])).keeps.sound g hg.wellFormed
  unfold Pipeline.run
  rw [hsound]
  exact rounds_of_row hp hreject p.roundLimit 0 { state := g } hg hlen

end Pipeline

/-! ## The bound -/

namespace Graph

/-- The block of number `i` in a row of `n`: it branches to the next, and the last returns. -/
def link (n i : Nat) : Block where
  id := i
  name := "b" ++ toString i
  code := [{ toAction := if i + 1 < n then .br (i + 1 : Nat) else .ret [], id := i, block := i }]

/-- The blocks `b0`, `b1` and so on in a row, from the entry `b0` to the one that returns. -/
def chain (name : String) (n : Nat) : Graph where
  name := name
  slots := (List.range n).map fun i => some (link n i)
  order := (List.range n).map Int.ofNat
  entry := some 0
  nextValue := n

theorem mem_chain_order {name : String} {n : Nat} {b : BlockId} :
    b ∈ (chain name n).order ↔ ∃ i < n, b = (i : Int) := by
  simp only [chain, List.mem_map, List.mem_range, Int.ofNat_eq_natCast]
  constructor
  · rintro ⟨i, hi, rfl⟩
    exact ⟨i, hi, rfl⟩
  · rintro ⟨i, hi, rfl⟩
    exact ⟨i, hi, rfl⟩

theorem block?_chain (name : String) {n i : Nat} (hi : i < n) :
    (chain name n).block? i = some (link n i) := by
  rw [block?_of_nonneg (Int.natCast_nonneg i)]
  simp [chain, hi]

theorem link_fitsIn (name : String) (n i : Nat) : (link n i).FitsIn i (chain name n).order := by
  have hends : (link n i).Ends := by
    refine ⟨[], _, rfl, ?_, by simp⟩
    dsimp only
    split <;> rfl
  refine ⟨rfl, rfl, hends, by simp [link], ?_, ?_⟩
  · by_cases hlast : i + 1 < n <;> simp [link, hlast, Action.br, Action.ret, Action.Fits]
  · by_cases hlast : i + 1 < n
    · simp [link, hlast, Action.br, Action.targets, Operand.block?, mem_chain_order]
      exact ⟨i + 1, hlast, rfl⟩
    · simp [link, hlast, Action.ret, Action.targets]

theorem passTarget?_chain (name : String) {n i : Nat} (hi : i + 1 < n) :
    (chain name n).passTarget? i = some (i + 1 : Nat) := by
  unfold passTarget?
  rw [block?_chain name (by omega)]
  simp [link, hi, Block.soleBranch?, Action.br, Action.targets, Operand.block?]

theorem chain_row (name : String) {n : Nat} (hn : 0 < n) : (chain name n).Row := by
  refine ⟨⟨?_, ?_, ?_⟩, ?_, ?_⟩
  · exact List.nodup_range.map (fun i j hij => Int.ofNat.inj hij)
  · intro id hid
    obtain ⟨i, hi, rfl⟩ := mem_chain_order.mp hid
    exact ⟨link n i, block?_chain name hi, link_fitsIn name n i⟩
  · exact ⟨0, mem_chain_order.mpr ⟨0, hn, rfl⟩, rfl⟩
  · simp [chain, List.head?_range, Nat.ne_of_gt hn]
  · unfold chain
    rw [List.isChain_map, List.isChain_range]
    intro i hi
    exact passTarget?_chain name (by omega)

end Graph

/-- The usual settings with another number of rounds make a pipeline of both passes. -/
theorem Settings.pipeline_default {rounds : Int} (h : 0 < rounds) (verify : Bool) :
    Settings.pipeline { Settings.default with maxRounds := rounds, verify := verify } =
      .ok { passes := registeredPasses, maxRounds := rounds, onLimit := .reject
            verify := verify } := by
  have hpolicy : Policy.ofName? Settings.default.onLimit = some .reject := by decide
  have hnames : Settings.default.passes.find? (fun n => (registeredPass? n).isNone) = none := by
    decide
  have hpasses : Settings.default.passes.filterMap registeredPass? = registeredPasses := rfl
  unfold Settings.pipeline Settings.fault?
  simp only [Int.not_le.mpr h, hpolicy, hnames, hpasses, if_false, Option.isNone_some,
    Bool.false_eq_true, Option.map_none, Option.getD_some]

namespace Pipeline

/-- As many rounds as there are blocks are enough for registered passes: the run does not
fail, each round but the last takes out a block, no pass changes anything in the last, and
a second run changes nothing. One round less is not enough for a row of blocks. -/
theorem as_many_rounds_as_blocks_are_enough_and_needed :
    (∀ p : Pipeline Graph, (∀ q ∈ p.passes, q ∈ registeredPasses) →
      ∀ g : Graph, g.fault? = none → g.order.length ≤ p.roundLimit →
        (p.run g).error = none ∧
        (∃ earlier last, p.history g = earlier ++ [last] ∧
          (p.run g).state = last.2.state ∧
          (p.run g).calls = (earlier.length + 1) * p.passes.length ∧
          (∀ r ∈ earlier, r.2.state.order.length < r.1.order.length) ∧
          ∀ c ∈ Pass.calls p.passes last.1, c.2.changed = false) ∧
        (p.run (p.run g).state).error = none ∧
        (p.run (p.run g).state).changed = false ∧
        (p.run (p.run g).state).state = (p.run g).state) ∧
    ∀ (name : String) (n : Nat), 2 ≤ n → ∀ verify : Bool, ∃ p,
      Settings.pipeline { Settings.default with maxRounds := n - 1, verify := verify } = .ok p ∧
        (p.run (Graph.chain name n)).error = some (.noFixpoint name (n - 1)) := by
  constructor
  · intro p hp g hg hlimit
    obtain ⟨earlier, last, hhistory, hlower, hstate, hquiet, hrun, hagain⟩ :=
      (lowers_registered hp).run (Graph.fault?_eq_none.mp hg) hlimit
    rw [hrun, hagain]
    refine ⟨rfl, ⟨earlier, last, hhistory, hstate.symm, rfl, hlower, ?_⟩, rfl, rfl, rfl⟩
    intro c hc
    simpa using List.any_eq_false.mp hquiet c hc
  · intro name n hn verify
    refine ⟨_, Settings.pipeline_default (by omega) verify, ?_⟩
    generalize hp : ({ passes := registeredPasses, maxRounds := (n : Int) - 1, onLimit := .reject
                       verify := verify } : Pipeline Graph) = p
    have hlimit : p.roundLimit = n - 1 := by
      have hpos : ¬ (n : Int) - 1 ≤ 0 := by omega
      rw [← hp]
      simp only [roundLimit, hpos, if_false]
      omega
    rw [← hlimit]
    apply run_of_row (by rw [← hp]) (by rw [← hp]) (Graph.chain_row name (by omega))
    have hlen : (Graph.chain name n).order.length = n := by simp [Graph.chain]
    omega

/-- Both passes in turns, with just enough rounds for five blocks. -/
def fiveRounds : Pipeline Graph where
  passes := [unreachableBlockElimination, emptyBlockElimination]
  maxRounds := 5
  onLimit := .reject
  verify := true

/-- Five rounds are enough for the five blocks of `tangle`, and the usual limit is just too
low for a row of 65. -/
theorem five_rounds_are_enough_for_tangle :
    Graph.tangle.fault? = none ∧ Graph.tangle.order.length = fiveRounds.roundLimit ∧
    (fiveRounds.run Graph.tangle).error = none ∧
    (fiveRounds.run (fiveRounds.run Graph.tangle).state).changed = false ∧
    ∃ p, Settings.default.pipeline = .ok p ∧
      (p.run (Graph.chain "long" 65)).error = some (.noFixpoint "long" 64) := by
  have hg : Graph.tangle.fault? = none := by decide
  have hlimit : Graph.tangle.order.length = fiveRounds.roundLimit := by decide
  obtain ⟨henough, hneeded⟩ := as_many_rounds_as_blocks_are_enough_and_needed
  obtain ⟨hok, -, -, hagain, -⟩ := henough fiveRounds (by simp [fiveRounds, registeredPasses])
    Graph.tangle hg (Nat.le_of_eq hlimit)
  exact ⟨hg, hlimit, hok, hagain, hneeded "long" 65 (by decide) true⟩

end Pipeline

end FlowGraph

import Mathlib.Data.List.Nodup
import Mathlib.Data.List.Sort
import FlowGraph.KeySet

/-!
The keys of a set, one after the other. A visit takes the lowest bit off a word
again and again and then goes on with the next word. So it meets the keys as
they ascend, each once, until the visitor stops. The list of keys is what a
visitor meets that never stops, and the set bits of the words are as many.
-/

namespace FlowGraph.KeySet

/-! ## The bits of a word -/

/-- The set bits of a word, lowest first. -/
def bitsOf (w : UInt64) : List Nat := (List.range 64).filter (bit w)

theorem mem_bitsOf {w : UInt64} {j : Nat} : j ∈ bitsOf w ↔ j < 64 ∧ bit w j = true := by
  simp [bitsOf]

theorem bitsOf_pairwise (w : UInt64) : (bitsOf w).Pairwise (· < ·) :=
  List.Pairwise.filter _ List.pairwise_lt_range

theorem bitsOf_zero : bitsOf 0 = [] := by
  simp [bitsOf, bit_zero]

/-- The lowest bit comes first, and the others are those of the word without it. -/
theorem bitsOf_eq_cons {w : UInt64} (h : w ≠ 0) :
    bitsOf w = lowestBit w :: bitsOf (clearBit w (lowestBit w)) := by
  obtain ⟨hlt, hset, hbelow⟩ := lowestBit_spec h
  have hmem : ∀ j, j ∈ bitsOf (clearBit w (lowestBit w)) ↔ j ≠ lowestBit w ∧ j ∈ bitsOf w := by
    intro j
    rw [mem_bitsOf, mem_bitsOf, bit_clearBit w hlt]
    simp
    tauto
  apply (bitsOf_pairwise w).eq_of_mem_iff
  · rw [List.pairwise_cons]
    refine ⟨?_, bitsOf_pairwise _⟩
    intro j hj
    obtain ⟨hne, hj⟩ := (hmem j).mp hj
    have hnot : ¬ j < lowestBit w := by
      intro hjl
      have hbit := (mem_bitsOf.mp hj).2
      rw [hbelow j hjl] at hbit
      cases hbit
    omega
  · intro j
    rw [List.mem_cons, hmem]
    by_cases hj : j = lowestBit w
    · simp [hj, mem_bitsOf, hlt, hset]
    · simp [hj]

theorem countBits_eq (w : UInt64) : countBits w = (bitsOf w).length := by
  have key : ∀ n, w.toBitVec.cpopNatRec n 0 = ((List.range n).filter (bit w)).length := by
    intro n
    induction n with
    | zero => rfl
    | succ n ih =>
      rw [BitVec.cpopNatRec_succ, BitVec.cpopNatRec_eq, ih, List.range_succ, List.filter_append,
        List.length_append]
      have hbit : w.toBitVec.getLsbD n = bit w n := rfl
      rw [hbit]
      cases hb : bit w n <;> simp [hb]
  unfold countBits
  rw [BitVec.toNat_cpop]
  exact key 64

/-! ## Words in a row -/

/-- The keys of words, the first of which is word `i`. -/
def keysFrom (i : Nat) : List UInt64 → List Nat
  | [] => []
  | w :: ws => (bitsOf w).map (64 * i + ·) ++ keysFrom (i + 1) ws

theorem mem_keysFrom (ws : List UInt64) (i n : Nat) :
    n ∈ keysFrom i ws ↔ 64 * i ≤ n ∧ bitAt ws (n - 64 * i) = true := by
  induction ws generalizing i with
  | nil => simp [keysFrom, bitAt]
  | cons w ws ih =>
    unfold keysFrom
    rw [List.mem_append, ih, List.mem_map]
    constructor
    · rintro (⟨j, hj, rfl⟩ | ⟨hle, hb⟩)
      · obtain ⟨hlt, hbit⟩ := mem_bitsOf.mp hj
        refine ⟨by omega, ?_⟩
        simp [bitAt, Nat.div_eq_of_lt hlt, Nat.mod_eq_of_lt hlt, hbit]
      · refine ⟨by omega, ?_⟩
        have hdiv : (n - 64 * i) / 64 = (n - 64 * (i + 1)) / 64 + 1 := by omega
        have hmod : (n - 64 * i) % 64 = (n - 64 * (i + 1)) % 64 := by omega
        simpa [bitAt, hdiv, hmod] using hb
    · rintro ⟨hle, hb⟩
      -- the key is one of the first word, or of a later one
      by_cases hlt : n - 64 * i < 64
      · left
        refine ⟨n - 64 * i, mem_bitsOf.mpr ⟨hlt, ?_⟩, by omega⟩
        simpa [bitAt, Nat.div_eq_of_lt hlt, Nat.mod_eq_of_lt hlt] using hb
      · right
        refine ⟨by omega, ?_⟩
        have hdiv : (n - 64 * i) / 64 = (n - 64 * (i + 1)) / 64 + 1 := by omega
        have hmod : (n - 64 * i) % 64 = (n - 64 * (i + 1)) % 64 := by omega
        simpa [bitAt, hdiv, hmod] using hb

theorem keysFrom_pairwise (ws : List UInt64) (i : Nat) :
    (keysFrom i ws).Pairwise (· < ·) := by
  induction ws generalizing i with
  | nil => simp [keysFrom]
  | cons w ws ih =>
    unfold keysFrom
    rw [List.pairwise_append]
    refine ⟨?_, ih (i + 1), ?_⟩
    · rw [List.pairwise_map]
      exact (bitsOf_pairwise w).imp (by omega)
    · intro a ha b hb
      obtain ⟨j, hj, rfl⟩ := List.mem_map.mp ha
      have hlt := (mem_bitsOf.mp hj).1
      have hle := ((mem_keysFrom ws (i + 1) b).mp hb).1
      omega

theorem foldl_countBits (ws : List UInt64) (i n : Nat) :
    ws.foldl (fun n w => n + countBits w) n = n + (keysFrom i ws).length := by
  induction ws generalizing i n with
  | nil => rfl
  | cons w ws ih =>
    rw [List.foldl_cons, ih (i + 1), keysFrom, List.length_append, List.length_map, countBits_eq]
    omega

/-! ## Visits -/

section Visits

variable {σ : Type} (visitor : σ → Nat → σ × Bool)

/-- A visit of the keys of a list, and whether the visitor went on after the last one. -/
def visitAll : List Nat → σ → σ × Bool
  | [], state => (state, true)
  | k :: ks, state =>
    match visitor state k with
    | (state, true) => visitAll ks state
    | (state, false) => (state, false)

theorem visitAll_append (ks ls : List Nat) (state : σ) :
    visitAll visitor (ks ++ ls) state =
      match visitAll visitor ks state with
      | (state, true) => visitAll visitor ls state
      | (state, false) => (state, false) := by
  induction ks generalizing state with
  | nil => rfl
  | cons k ks ih =>
    rw [List.cons_append, visitAll, visitAll]
    split
    · exact ih _
    · rfl

theorem visitWord_eq (i : Nat) (w : UInt64) (state : σ) :
    visitWord visitor i w state = visitAll visitor ((bitsOf w).map (64 * i + ·)) state := by
  fun_induction visitWord visitor i w state with
  | case1 state => rw [bitsOf_zero]; rfl
  | case2 w state hw state' hv ih =>
    rw [bitsOf_eq_cons hw, List.map_cons, visitAll, hv]
    exact ih
  | case3 w state hw state' hv =>
    rw [bitsOf_eq_cons hw, List.map_cons, visitAll, hv]

theorem visitFrom_eq (i : Nat) (ws : List UInt64) (state : σ) :
    visitFrom visitor i ws state = (visitAll visitor (keysFrom i ws) state).1 := by
  induction ws generalizing i state with
  | nil => rfl
  | cons w ws ih =>
    rw [visitFrom, keysFrom, visitAll_append, visitWord_eq]
    rcases visitAll visitor ((bitsOf w).map (64 * i + ·)) state with ⟨left, _ | _⟩
    · rfl
    · exact ih (i + 1) left

end Visits

theorem visitAll_cons (ks keys : List Nat) :
    visitAll (fun keys k => (k :: keys, true)) ks keys = (ks.reverse ++ keys, true) := by
  induction ks generalizing keys with
  | nil => rfl
  | cons k ks ih =>
    rw [List.reverse_cons, List.append_assoc]
    exact ih (k :: keys)

theorem toList_eq (s : KeySet) : s.toList = keysFrom 0 s.words := by
  unfold toList visit
  rw [visitFrom_eq, visitAll_cons, List.append_nil, List.reverse_reverse]

/-- A visit goes along the list of keys. -/
theorem visit_eq {σ : Type} (s : KeySet) (start : σ) (visitor : σ → Nat → σ × Bool) :
    s.visit start visitor = (visitAll visitor s.toList start).1 := by
  rw [toList_eq]
  exact visitFrom_eq visitor 0 s.words start

/-! ## The list of keys -/

/-- The list holds the keys of the set. -/
theorem mem_toList {s : KeySet} {n : Nat} : n ∈ s.toList ↔ s.contains (n : Int) = true := by
  rw [toList_eq, mem_keysFrom, contains_eq]
  simp

/-- The list of keys is ascending. -/
theorem toList_pairwise (s : KeySet) : s.toList.Pairwise (· < ·) := by
  rw [toList_eq]
  exact keysFrom_pairwise _ _

theorem toList_nodup (s : KeySet) : s.toList.Nodup :=
  (toList_pairwise s).imp (fun h => Nat.ne_of_lt h)

theorem mem_map_toList {s : KeySet} {k : Int} :
    k ∈ s.toList.map Int.ofNat ↔ s.contains k = true := by
  rw [List.mem_map]
  constructor
  · rintro ⟨n, hn, rfl⟩
    exact mem_toList.mp hn
  · intro hk
    have hnn : 0 ≤ k := by
      rw [contains_eq, Bool.and_eq_true, decide_eq_true_eq] at hk
      exact hk.1
    refine ⟨k.toNat, mem_toList.mpr ?_, Int.toNat_of_nonneg hnn⟩
    rwa [Int.toNat_of_nonneg hnn]

theorem map_toList_nodup (s : KeySet) : (s.toList.map Int.ofNat).Nodup :=
  (toList_nodup s).map (fun _ _ hab => Int.ofNat.inj hab)

/-- The size is the number of keys. -/
theorem size_eq_length (s : KeySet) : s.size = s.toList.length := by
  rw [toList_eq]
  unfold size
  rw [foldl_countBits s.words 0, Nat.zero_add]

end FlowGraph.KeySet

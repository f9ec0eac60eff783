/-!
A set of small non-negative keys, one bit a key in words of 64 bits. The set
grows by whole words when a key needs one, and an answer never depends on how
many words there are.
-/

namespace FlowGraph

/-- A set of keys. Bit `j` of word `i` is the key `64 * i + j`. -/
structure KeySet where
  -- the words, lowest keys first
  words : List UInt64 := []
deriving DecidableEq

namespace KeySet

/-! ## Words -/

def bit (w : UInt64) (j : Nat) : Bool := w.toNat.testBit j

def setBit (w : UInt64) (j : Nat) : UInt64 := w ||| (1 <<< UInt64.ofNat j)

def clearBit (w : UInt64) (j : Nat) : UInt64 := w &&& ~~~(1 <<< UInt64.ofNat j)

/-- The lowest set bit of a word, which is 64 if no bit is set. -/
def lowestBit (w : UInt64) : Nat := ((List.range 64).find? (bit w)).getD 64

def countBits (w : UInt64) : Nat := w.toBitVec.cpop.toNat

/-- At least `n` words, the missing ones empty. -/
def padTo (n : Nat) (ws : List UInt64) : List UInt64 := ws ++ List.replicate (n - ws.length) 0

theorem bit_zero (k : Nat) : bit 0 k = false := by
  simp [bit]

theorem bit_of_le (w : UInt64) {k : Nat} (hk : 64 ≤ k) : bit w k = false :=
  Nat.testBit_lt_two_pow (Nat.lt_of_lt_of_le w.toNat_lt (Nat.pow_le_pow_right (by omega) hk))

theorem bit_shiftLeft {j : Nat} (hj : j < 64) (k : Nat) :
    bit (1 <<< UInt64.ofNat j) k = decide (k = j) := by
  have hs : (1 <<< UInt64.ofNat j : UInt64).toNat = 2 ^ j := by
    have hp : 2 ^ j < 2 ^ 64 := Nat.pow_lt_pow_right (by omega) hj
    simp [UInt64.toNat_shiftLeft, Nat.mod_eq_of_lt hj, Nat.shiftLeft_eq]
    omega
  unfold bit
  rw [hs, Nat.testBit_two_pow]
  simp [eq_comm]

theorem bit_setBit (w : UInt64) {j : Nat} (hj : j < 64) (k : Nat) :
    bit (setBit w j) k = (decide (k = j) || bit w k) := by
  have hs := bit_shiftLeft hj k
  unfold bit setBit at *
  rw [UInt64.toNat_or, Nat.testBit_or, hs, Bool.or_comm]

theorem bit_clearBit (w : UInt64) {j : Nat} (hj : j < 64) (k : Nat) :
    bit (clearBit w j) k = (!decide (k = j) && bit w k) := by
  by_cases hk : k < 64
  · have hs : (1 <<< UInt64.ofNat j : UInt64).toBitVec.getLsbD k = decide (k = j) :=
      bit_shiftLeft hj k
    show (w.toBitVec &&& ~~~(1 <<< UInt64.ofNat j : UInt64).toBitVec).getLsbD k = _
    rw [BitVec.getLsbD_and, BitVec.getLsbD_not, hs, Bool.and_comm]
    simp [hk, bit, BitVec.getLsbD]
  · rw [bit_of_le _ (by omega), bit_of_le _ (by omega), Bool.and_false]

theorem eq_zero_of_bit {w : UInt64} (h : ∀ j < 64, bit w j = false) : w = 0 := by
  apply UInt64.toNat_inj.mp
  apply Nat.eq_of_testBit_eq
  intro k
  rw [UInt64.toNat_zero, Nat.zero_testBit]
  by_cases hk : k < 64
  · exact h k hk
  · exact bit_of_le w (by omega)

/-- The lowest set bit of a word is set, and no bit below it is. -/
theorem lowestBit_spec {w : UInt64} (h : w ≠ 0) :
    lowestBit w < 64 ∧ bit w (lowestBit w) = true ∧ ∀ j < lowestBit w, bit w j = false := by
  unfold lowestBit
  cases hf : (List.range 64).find? (bit w) with
  | none =>
    refine absurd (eq_zero_of_bit fun j hj => ?_) h
    simpa using List.find?_eq_none.mp hf j (List.mem_range.mpr hj)
  | some j =>
    obtain ⟨hset, hlt, hbelow⟩ := List.find?_range_eq_some.mp hf
    exact ⟨List.mem_range.mp hlt, hset, by simpa using hbelow⟩

theorem clearBit_lowestBit_lt {w : UInt64} (h : w ≠ 0) :
    (clearBit w (lowestBit w)).toNat < w.toNat := by
  obtain ⟨hlt, hset, -⟩ := lowestBit_spec h
  apply Nat.lt_of_le_of_ne
  · unfold clearBit
    rw [UInt64.toNat_and]
    exact Nat.and_le_left
  · intro heq
    have hclear := bit_clearBit w hlt (lowestBit w)
    unfold bit at hclear hset
    rw [heq, hset] at hclear
    simp at hclear

/-! ## The set -/

/-- The set that was never given a size or a key. -/
def empty : KeySet := {}

/-- An empty set with room for keys below `size`. It has one word at least. The
room is counted in 64 bits with a sign. -/
def ofSize (size : Int) : KeySet :=
  { words := padTo ((Int64.ofInt size + 63) / 64).toInt.toNat [0] }

def contains (s : KeySet) (k : Int) : Bool :=
  if k < 0 then false
  else ((s.words[k.toNat / 64]?).map (bit · (k.toNat % 64))).getD false

/-- The set with a key added, which must not be negative. -/
def insert? (s : KeySet) (k : Int) : Option KeySet :=
  if k < 0 then none
  else
    let i := k.toNat / 64
    some { words := (padTo (i + 1) s.words).modify i (setBit · (k.toNat % 64)) }

/-- Whether the key was in the set, and the set with the key in it. -/
def testAndInsert? (s : KeySet) (k : Int) : Option (Bool × KeySet) :=
  if s.contains k then some (true, s) else (s.insert? k).map (false, ·)

def size (s : KeySet) : Nat := s.words.foldl (fun n w => n + countBits w) 0

/-- Visits the keys of the set bits of word `i`, lowest first. The flag says whether
the visitor went on after the last one. -/
@[semireducible]
def visitWord {σ : Type} (visitor : σ → Nat → σ × Bool) (i : Nat) (w : UInt64) (state : σ) :
    σ × Bool :=
  if w = 0 then (state, true)
  else
    match visitor state (64 * i + lowestBit w) with
    | (state, true) => visitWord visitor i (clearBit w (lowestBit w)) state
    | (state, false) => (state, false)
termination_by w.toNat
decreasing_by exact clearBit_lowestBit_lt ‹_›

/-- Visits the keys of words, the first of which is word `i`. -/
def visitFrom {σ : Type} (visitor : σ → Nat → σ × Bool) (i : Nat) : List UInt64 → σ → σ
  | [], state => state
  | w :: ws, state =>
    match visitWord visitor i w state with
    | (state, true) => visitFrom visitor (i + 1) ws state
    | (state, false) => state

/-- Visits the keys in ascending order. The visitor gives a new state and says
whether to go on. -/
def visit {σ : Type} (s : KeySet) (start : σ) (visitor : σ → Nat → σ × Bool) : σ :=
  visitFrom visitor 0 s.words start

/-- The keys, in ascending order. -/
def toList (s : KeySet) : List Nat := (s.visit [] fun keys k => (k :: keys, true)).reverse

/-! ## Membership -/

/-- The bit of a key in a list of words: not set past the last word. -/
def bitAt (ws : List UInt64) (n : Nat) : Bool :=
  ((ws[n / 64]?).map (bit · (n % 64))).getD false

theorem bitAt_padTo (m : Nat) (ws : List UInt64) (n : Nat) :
    bitAt (padTo m ws) n = bitAt ws n := by
  unfold bitAt padTo
  rw [List.getElem?_append]
  split
  · rfl
  · rename_i h
    rw [List.getElem?_eq_none (by omega : ws.length ≤ n / 64), List.getElem?_replicate]
    split
    · simp [bit_zero]
    · rfl

theorem bitAt_modify_setBit (ws : List UInt64) (k n : Nat) (h : k / 64 < ws.length) :
    bitAt (ws.modify (k / 64) (setBit · (k % 64))) n = (decide (n = k) || bitAt ws n) := by
  unfold bitAt
  rw [List.getElem?_modify]
  by_cases hw : k / 64 = n / 64
  · have hlt : n / 64 < ws.length := hw ▸ h
    have hnk : n % 64 = k % 64 ↔ n = k := by omega
    simp [hw, List.getElem?_eq_getElem hlt, bit_setBit _ (Nat.mod_lt k (by omega : 0 < 64)), hnk]
  · have hne : n ≠ k := by rintro rfl; exact hw rfl
    simp [hw, hne]

theorem contains_eq (s : KeySet) (k : Int) :
    s.contains k = (decide (0 ≤ k) && bitAt s.words k.toNat) := by
  unfold contains bitAt
  by_cases hk : k < 0
  · simp [hk, Int.not_le.mpr hk]
  · simp [hk, Int.not_lt.mp hk]

@[simp] theorem contains_ofSize (n k : Int) : (ofSize n).contains k = false := by
  rw [contains_eq]
  unfold ofSize
  simp only [bitAt_padTo, Bool.and_eq_false_imp]
  intro _
  unfold bitAt
  rcases h : k.toNat / 64 with _ | m
  · simp [bit_zero]
  · simp

theorem insert?_isSome {s : KeySet} {k : Int} (hk : 0 ≤ k) : ∃ s', s.insert? k = some s' := by
  unfold insert?
  simp [Int.not_lt.mpr hk]

/-- An added key is in the set, and no other key comes or goes. -/
theorem contains_insert? {s s' : KeySet} {k : Int} (h : s.insert? k = some s') (j : Int) :
    s'.contains j = (decide (j = k) || s.contains j) := by
  unfold insert? at h
  split at h
  · cases h
  rename_i hk
  cases h
  -- the words were padded, so the word of the key is there
  have hlen : k.toNat / 64 < (padTo (k.toNat / 64 + 1) s.words).length := by
    simp only [padTo, List.length_append, List.length_replicate]
    omega
  rw [contains_eq, contains_eq, bitAt_modify_setBit _ _ _ hlen, bitAt_padTo]
  have hjk : 0 ≤ j → (j.toNat = k.toNat ↔ j = k) := by omega
  by_cases hj : 0 ≤ j
  · simp [hj, hjk hj]
  · have : j ≠ k := by omega
    simp [hj, this]

/-- Adding a key tells whether it was there, and the set then has it. -/
theorem testAndInsert?_spec {s s' : KeySet} {k : Int} {b : Bool}
    (h : s.testAndInsert? k = some (b, s')) :
    b = s.contains k ∧ ∀ j, s'.contains j = (decide (j = k) || s.contains j) := by
  unfold testAndInsert? at h
  split at h
  · rename_i hc
    cases h
    refine ⟨hc.symm, fun j => ?_⟩
    by_cases hj : j = k
    · simp [hj, hc]
    · simp [hj]
  · rename_i hc
    obtain ⟨t, ht, he⟩ := Option.map_eq_some_iff.mp h
    cases he
    exact ⟨by simpa using hc, contains_insert? ht⟩

theorem testAndInsert?_isSome {s : KeySet} {k : Int} (hk : 0 ≤ k) :
    ∃ r, s.testAndInsert? k = some r := by
  unfold testAndInsert?
  split
  · exact ⟨_, rfl⟩
  · obtain ⟨t, ht⟩ := insert?_isSome (s := s) hk
    exact ⟨_, by rw [ht]; rfl⟩

/-- All keys of the first set are in the second. -/
instance : HasSubset KeySet := ⟨fun s t => ∀ k, s.contains k = true → t.contains k = true⟩

theorem subset_refl (s : KeySet) : s ⊆ s := fun _ h => h

theorem subset_trans {s t u : KeySet} (h : s ⊆ t) (h' : t ⊆ u) : s ⊆ u :=
  fun k hk => h' k (h k hk)

theorem subset_of_testAndInsert? {s s' : KeySet} {k : Int} {b : Bool}
    (h : s.testAndInsert? k = some (b, s')) : s ⊆ s' := by
  intro j hj
  rw [(testAndInsert?_spec h).2, hj, Bool.or_true]

/-! ## On the wire -/

/-- The lowest `count` bytes of a number, highest first. -/
def bytesOf (count n : Nat) : List UInt8 :=
  (List.range count).reverse.map (fun i => UInt8.ofNat (n >>> (8 * i)))

/-- A key as an unsigned number of the fewest bytes that hold it, after a byte
that tells how many there are. A key below 24 is one byte. -/
def wireKey (k : Nat) : List UInt8 :=
  if k < 24 then [UInt8.ofNat k]
  else if k < Nat.pow 2 8 then 0x18 :: bytesOf 1 k
  else if k < Nat.pow 2 16 then 0x19 :: bytesOf 2 k
  else if k < Nat.pow 2 32 then 0x1a :: bytesOf 4 k
  else 0x1b :: bytesOf 8 k

/-- The set as a list without a length: an opening byte, the keys, a closing
byte. A set that was never given a size or a key is the byte of nothing. -/
def wire (s : KeySet) : List UInt8 :=
  if s.words.isEmpty then [0xf6] else [0x9f] ++ s.toList.flatMap wireKey ++ [0xff]

end KeySet

end FlowGraph

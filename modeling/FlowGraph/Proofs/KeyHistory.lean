import Mathlib.Data.Finset.Card
import FlowGraph.Proofs.KeySet

/-!
A set of keys over a whole history of calls. Whatever was asked of it before,
and whatever room it was made with, it answers as the finite set of the keys
that were added so far. One call keeps this, so every history does.
-/

namespace FlowGraph.KeySet

/-! ## Calls -/

/-- What can be asked of a set of keys. -/
inductive Call where
  | insert (k : Int)
  -- add a key and tell whether it was there
  | testAndInsert (k : Int)
  | contains (k : Int)
  | size
  | toList
  | visit (σ : Type) (start : σ) (visitor : σ → Nat → σ × Bool)

inductive Answer where
  | done
  | truth (b : Bool)
  | count (n : Nat)
  | keys (ks : List Nat)
deriving DecidableEq

/-- A visitor that notes the keys it is shown. -/
def noting {σ : Type} (visitor : σ → Nat → σ × Bool) (seen : σ × List Nat) (k : Nat) :
    (σ × List Nat) × Bool :=
  let (state, more) := visitor seen.1 k
  ((state, seen.2 ++ [k]), more)

/-- The answer to a call and the set after it. A visit is answered with the keys that
were shown. There is no answer where the call cannot be made. -/
def ask? (s : KeySet) : Call → Option (Answer × KeySet)
  | .insert k => (s.insert? k).map fun s => (.done, s)
  | .testAndInsert k => (s.testAndInsert? k).map fun (b, s) => (.truth b, s)
  | .contains k => some (.truth (s.contains k), s)
  | .size => some (.count s.size, s)
  | .toList => some (.keys s.toList, s)
  | .visit _ start visitor => some (.keys (s.visit (start, []) (noting visitor)).2, s)

/-- The set after calls, made one after the other. -/
def run? (s : KeySet) (calls : List Call) : Option KeySet :=
  calls.foldlM (fun s call => (s.ask? call).map (·.2)) s

/-- The set was just made: without a size, or for some size. -/
def New (s : KeySet) : Prop := s = empty ∨ ∃ size, s = ofSize size

namespace Call

def key? : Call → Option Int
  | insert k => some k
  | testAndInsert k => some k
  | _ => none

/-- The call adds no negative key. -/
def Allowed (call : Call) : Prop := ∀ k, call.key? = some k → 0 ≤ k

/-- The keys that calls add. -/
def added (calls : List Call) : Finset Int := (calls.filterMap key?).toFinset

theorem added_cons (call : Call) (calls : List Call) :
    added (call :: calls) = added [call] ∪ added calls := by
  unfold added
  rw [← List.toFinset_append, ← List.filterMap_append]
  rfl

end Call

/-! ## The answers of a finite set -/

/-- The list ascends and has the members of the set. -/
structure Lists (ks : List Nat) (S : Finset Int) : Prop where
  ascending : ks.Pairwise (· < ·)
  members : ∀ k, k ∈ S ↔ k ∈ ks.map Int.ofNat

/-- What a visitor has come to after some keys. -/
def stateAfter {σ : Type} (visitor : σ → Nat → σ × Bool) (start : σ) (ks : List Nat) : σ :=
  ks.foldl (fun state k => (visitor state k).1) start

/-- Of all keys those are shown that come before the first on which the visitor stops, and
that one, too. -/
structure Shown {σ : Type} (visitor : σ → Nat → σ × Bool) (start : σ) (all shown : List Nat) :
    Prop where
  first : shown <+: all
  -- the visitor went on after each key that another one follows
  went_on : ∀ before k after, shown = before ++ k :: after → after ≠ [] →
    (visitor (stateAfter visitor start before) k).2 = true
  -- a key is left out only when the visitor stopped at the last one shown
  stopped : shown ≠ all → ∃ before k, shown = before ++ [k] ∧
    (visitor (stateAfter visitor start before) k).2 = false

/-- How a finite set answers a call. -/
def Answers (S : Finset Int) : Call → Answer → Prop
  | .insert _, a => a = .done
  | .testAndInsert k, a => a = .truth (decide (k ∈ S))
  | .contains k, a => a = .truth (decide (k ∈ S))
  | .size, a => a = .count S.card
  | .toList, a => ∃ ks, a = .keys ks ∧ Lists ks S
  | .visit _ start visitor, a =>
    ∃ all shown, a = .keys shown ∧ Lists all S ∧ Shown visitor start all shown

/-! ## What a visitor is shown -/

section Visitor

variable {σ : Type} {visitor : σ → Nat → σ × Bool} {start : σ} {k : Nat} {ks shown : List Nat}

theorem Shown.nil : Shown visitor start [] [] := by
  refine ⟨List.nil_prefix, ?_, fun h => absurd rfl h⟩
  intro before k after h
  simp at h

theorem Shown.stop (hk : (visitor start k).2 = false) : Shown visitor start (k :: ks) [k] := by
  refine ⟨by simp, ?_, fun _ => ⟨[], k, rfl, hk⟩⟩
  intro before j after h hafter
  rcases before with _ | ⟨b, before⟩
  · cases h
    exact absurd rfl hafter
  · simp at h

theorem Shown.go (hk : (visitor start k).2 = true)
    (h : Shown visitor (visitor start k).1 ks shown) :
    Shown visitor start (k :: ks) (k :: shown) := by
  refine ⟨List.cons_prefix_cons.mpr ⟨rfl, h.first⟩, ?_, ?_⟩
  · intro before j after heq hafter
    rcases before with _ | ⟨b, before⟩
    · cases heq
      exact hk
    · obtain ⟨hb, hrest⟩ := List.cons.inj heq
      subst hb
      exact h.went_on before j after hrest hafter
  · intro hne
    obtain ⟨before, j, hshown, hj⟩ := h.stopped (fun he => hne (he ▸ rfl))
    exact ⟨k :: before, j, by rw [hshown]; rfl, hj⟩

/-- The keys that the visitor notes are those it is shown. -/
theorem visitAll_noting (visitor : σ → Nat → σ × Bool) (ks noted : List Nat) (state : σ) :
    ∃ shown, (visitAll (noting visitor) ks (state, noted)).1.2 = noted ++ shown ∧
      Shown visitor state ks shown := by
  induction ks generalizing state noted with
  | nil => exact ⟨[], by simp [visitAll], .nil⟩
  | cons k ks ih =>
    have hstep : noting visitor (state, noted) k =
        (((visitor state k).1, noted ++ [k]), (visitor state k).2) := rfl
    cases hmore : (visitor state k).2 with
    | false =>
      refine ⟨[k], ?_, .stop hmore⟩
      rw [visitAll, hstep, hmore]
    | true =>
      obtain ⟨shown, hnoted, hshown⟩ := ih (noted ++ [k]) (visitor state k).1
      refine ⟨k :: shown, ?_, .go hmore hshown⟩
      rw [visitAll, hstep, hmore]
      simpa using hnoted

end Visitor

/-! ## One call -/

/-- The set of keys has the members of a finite set. -/
def Represents (s : KeySet) (S : Finset Int) : Prop := ∀ k, s.contains k = decide (k ∈ S)

variable {s s' : KeySet} {S : Finset Int}

theorem New.represents (h : s.New) : s.Represents ∅ := by
  intro k
  rcases h with rfl | ⟨size, rfl⟩
  · simp [contains_eq, empty, bitAt]
  · simp

theorem Represents.lists (h : s.Represents S) : Lists s.toList S := by
  refine ⟨toList_pairwise s, fun k => ?_⟩
  rw [mem_map_toList, h k, decide_eq_true_eq]

theorem Represents.size (h : s.Represents S) : s.size = S.card := by
  have hS : S = (s.toList.map Int.ofNat).toFinset := by
    ext k
    rw [List.mem_toFinset]
    exact h.lists.members k
  rw [hS, List.toFinset_card_of_nodup (map_toList_nodup s), List.length_map, size_eq_length]

theorem Represents.insert (h : s.Represents S) {k : Int}
    (hs' : ∀ j, s'.contains j = (decide (j = k) || s.contains j)) :
    s'.Represents (S ∪ {k}) := by
  intro j
  rw [hs', h j]
  by_cases hj : j = k <;> simp [hj]

/-- A call is answered as the finite set answers it, and then the key that it adds is there. -/
theorem Represents.ask (h : s.Represents S) {call : Call} (hcall : call.Allowed) :
    ∃ a s', s.ask? call = some (a, s') ∧ Answers S call a ∧
      s'.Represents (S ∪ Call.added [call]) := by
  have hsame : s.Represents (S ∪ ∅) := by rwa [Finset.union_empty]
  cases call with
  | insert k =>
    obtain ⟨t, ht⟩ := insert?_isSome (s := s) (hcall k rfl)
    exact ⟨.done, t, by rw [ask?, ht]; rfl, rfl, h.insert (contains_insert? ht)⟩
  | testAndInsert k =>
    obtain ⟨⟨b, t⟩, ht⟩ := testAndInsert?_isSome (s := s) (hcall k rfl)
    obtain ⟨hb, hc⟩ := testAndInsert?_spec ht
    refine ⟨.truth b, t, by rw [ask?, ht]; rfl, ?_, h.insert hc⟩
    rw [Answers, hb, h k]
  | contains k => exact ⟨_, s, rfl, by rw [Answers, h k], hsame⟩
  | size => exact ⟨_, s, rfl, by rw [Answers, h.size], hsame⟩
  | toList => exact ⟨_, s, rfl, ⟨s.toList, rfl, h.lists⟩, hsame⟩
  | visit σ start visitor =>
    obtain ⟨shown, hnoted, hshown⟩ := visitAll_noting visitor s.toList [] start
    refine ⟨_, s, rfl, ⟨s.toList, shown, ?_, h.lists, hshown⟩, hsame⟩
    rw [visit_eq, hnoted, List.nil_append]

/-! ## Histories -/

theorem Represents.run (h : s.Represents S) (calls : List Call) (hcalls : ∀ c ∈ calls, c.Allowed) :
    ∃ s', s.run? calls = some s' ∧ s'.Represents (S ∪ Call.added calls) := by
  induction calls generalizing s S with
  | nil => exact ⟨s, rfl, by simpa [Call.added] using h⟩
  | cons call calls ih =>
    obtain ⟨a, t, hask, -, ht⟩ := h.ask (hcalls call List.mem_cons_self)
    obtain ⟨s', hrun, hs'⟩ := ih ht fun c hc => hcalls c (List.mem_cons_of_mem call hc)
    refine ⟨s', ?_, ?_⟩
    · unfold run?
      rw [List.foldlM_cons, hask]
      exact hrun
    · rwa [Call.added_cons, ← Finset.union_assoc]

/-- A set of keys that is new is empty. After any calls that add no negative key, it answers
every further one as the finite set of the keys added so far does: it has a key if the set
has it, negative or not, it has as many, it lists them as they ascend, and it shows a visitor
those up to the first on which the visitor stops. -/
theorem a_key_set_answers_as_the_set_of_added_keys (start : KeySet) (hstart : start.New)
    (calls : List Call) (hcalls : ∀ c ∈ calls, c.Allowed) (call : Call) (hcall : call.Allowed) :
    ∃ s a s', start.run? calls = some s ∧ s.ask? call = some (a, s') ∧
      Answers (Call.added calls) call a := by
  obtain ⟨s, hrun, hs⟩ := hstart.represents.run calls hcalls
  rw [Finset.empty_union] at hs
  obtain ⟨a, s', hask, ha, -⟩ := hs.ask hcall
  exact ⟨s, a, s', hrun, hask, ha⟩

/-- Calls that add keys to three words of a set that was made for less than nothing, one of
them twice. -/
def scattered : List Call :=
  [.insert 130, .testAndInsert 3, .contains (-1), .insert 64, .toList, .testAndInsert 130,
   .insert 63]

/-- A visitor that stops at the third key. -/
def threeKeys : Call := .visit Nat 0 fun n _ => (n + 1, n < 2)

theorem a_key_set_answers_after_scattered_calls :
    (ofSize (-70)).New ∧ (∀ c ∈ scattered, c.Allowed) ∧ threeKeys.Allowed ∧
    (∃ s a s', (ofSize (-70)).run? scattered = some s ∧ s.ask? threeKeys = some (a, s') ∧
      Answers (Call.added scattered) threeKeys a) ∧
    ((ofSize (-70)).run? scattered).bind (fun s => (s.ask? threeKeys).map (·.1)) =
      some (.keys [3, 63, 64]) := by
  have hnew : (ofSize (-70)).New := .inr ⟨-70, rfl⟩
  have hcalls : ∀ c ∈ scattered, c.Allowed := by
    simp [scattered, Call.Allowed, Call.key?]
  have hvisit : threeKeys.Allowed := by
    simp [threeKeys, Call.Allowed, Call.key?]
  exact ⟨hnew, hcalls, hvisit,
    a_key_set_answers_as_the_set_of_added_keys _ hnew scattered hcalls threeKeys hvisit,
    by decide⟩

end FlowGraph.KeySet

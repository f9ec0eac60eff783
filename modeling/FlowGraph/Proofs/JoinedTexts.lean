import Mathlib.Data.List.TakeWhile
import FlowGraph.Proofs.Acceptance

/-!
Two texts with a newline between them. Whatever the first one ends with, its
lines stay as they were, and those of the second only get later numbers. So two
programs can be put into one text, as long as they share no function name.

That a text may be cut into lines before it is cut into tokens is shown here as
well: one pass over all bytes, which knows no lines before it has come to their
ends, gives the same.
-/

namespace FlowGraph.Text

/-! ## One pass -/

/-- The next token of a text that goes on with this byte, and the text after it. A comma and a
comment are passed without one. -/
def nextToken (c : UInt8) (rest : List UInt8) : Except TokenFault (Option Token × List UInt8) :=
  if c = 0x2c then .ok (none, rest)
  else match markOf? c with
    | some m => .ok (some (.mark m), rest)
    | none =>
      if c = 0x2f ∧ rest.head? = some 0x2f then .ok (none, rest.dropWhile (· != 0x0a))
      else if isDigit c || (c == 0x2d && (rest.head?.map isDigit).getD false) then
        let digits := rest.takeWhile isDigit
        let value := if c = 0x2d then numberOf? true digits else numberOf? false (c :: digits)
        match value with
        | none => .error (.tooLarge (asciiText (c :: digits)))
        | some x => .ok (some (.number x), rest.dropWhile isDigit)
      else if isIdentStart c then
        .ok (some (.ident (asciiText (c :: rest.takeWhile isIdentRest))),
          rest.dropWhile isIdentRest)
      else .error (.unsupported c)

theorem suffix_of_nextToken {c : UInt8} {rest rest' : List UInt8} {t : Option Token}
    (h : nextToken c rest = .ok (t, rest')) : rest' <:+ rest := by
  unfold nextToken at h
  split at h
  · cases h
    exact List.suffix_rfl
  · split at h
    · cases h
      exact List.suffix_rfl
    · split at h
      · cases h
        exact List.dropWhile_suffix _
      · split at h
        · dsimp only at h
          split at h
          · cases h
          · cases h
            exact List.dropWhile_suffix _
        · split at h
          · cases h
            exact List.dropWhile_suffix _
          · cases h

/-- A line of these tokens, if there are any. -/
def putOut (n : Nat) (ts : List Token) : List Line :=
  if ts.isEmpty then [] else [{ number := n, tokens := ts }]

/-- The lines of a text whose first line has this number and starts with these tokens. The
number goes up at each newline that is come to. -/
def passFrom (n : Nat) (line : List Token) :
    List UInt8 → Except (Nat × TokenFault) (List Line)
  | [] => .ok (putOut n line)
  | c :: rest =>
    if isBlank c then passFrom n line rest
    else if c = 0x0a then (passFrom (n + 1) [] rest).map (putOut n line ++ ·)
    else match h : nextToken c rest with
      | .error e => .error (n, e)
      | .ok (t, rest') =>
        have := (suffix_of_nextToken h).length_le
        passFrom n (line ++ t.toList) rest'
termination_by bs => bs.length

/-! ## No token goes past its line -/

section Seam

variable {rest : List UInt8} (hrest : ∀ c, rest.head? = some c → c = 0x0a)

include hrest

/-- A run of bytes of a class that a newline is not of ends with the line. -/
theorem run_append {p : UInt8 → Bool} (hp : p 0x0a = false) (cs : List UInt8) :
    (cs ++ rest).takeWhile p = cs.takeWhile p ∧
      (cs ++ rest).dropWhile p = cs.dropWhile p ++ rest := by
  induction cs with
  | nil =>
    cases rest with
    | nil => exact ⟨rfl, rfl⟩
    | cons c rest =>
      have hc : ¬ p c = true := by rw [hrest c rfl, hp]; simp
      exact ⟨List.takeWhile_cons_of_neg hc, List.dropWhile_cons_of_neg hc⟩
  | cons c cs ih =>
    by_cases hc : p c = true
    · simp only [List.cons_append, List.takeWhile_cons_of_pos hc, List.dropWhile_cons_of_pos hc]
      exact ⟨congrArg (c :: ·) ih.1, ih.2⟩
    · simp only [List.cons_append, List.takeWhile_cons_of_neg hc, List.dropWhile_cons_of_neg hc]
      exact ⟨trivial, trivial⟩

/-- Nor does a newline count as the second byte of a token. -/
theorem next_append {p : UInt8 → Bool} (hp : p 0x0a = false) (cs : List UInt8) :
    ((cs ++ rest).head?.map p).getD false = (cs.head?.map p).getD false := by
  cases cs with
  | cons c cs => rfl
  | nil =>
    cases rest with
    | nil => rfl
    | cons c rest =>
      show p c = false
      rw [hrest c rfl]
      exact hp

/-- The next token is the same whether or not other lines come after its line. -/
theorem nextToken_append (c : UInt8) (cs : List UInt8) :
    nextToken c (cs ++ rest) = (nextToken c cs).map fun p => (p.1, p.2 ++ rest) := by
  have hslash : (cs ++ rest).head? = some 0x2f ↔ cs.head? = some 0x2f := by
    have h := next_append hrest (p := (· == 0x2f)) (by decide) cs
    cases hl : (cs ++ rest).head? <;> cases hr : cs.head? <;> simp_all
  have hdigit := next_append hrest (p := isDigit) (by decide) cs
  obtain ⟨-, hcomment⟩ := run_append hrest (p := (· != 0x0a)) (by decide) cs
  obtain ⟨hdigits, hnumber⟩ := run_append hrest (p := isDigit) (by decide) cs
  obtain ⟨hname, hident⟩ := run_append hrest (p := isIdentRest) (by decide) cs
  simp only [nextToken, hslash, hdigit, hcomment, hdigits, hnumber, hname, hident]
  split
  · rfl
  · split
    · rfl
    · split
      · rfl
      · split
        · split <;> rfl
        · split <;> rfl

end Seam

/-- A line is its next token and then the tokens of what is left of it. -/
theorem tokens_cons {c : UInt8} {cs : List UInt8} (hblank : ¬ isBlank c = true)
    (hcs : 0x0a ∉ cs) :
    tokens (c :: cs) = nextToken c cs >>= fun p => (tokens p.2).map (p.1.toList ++ ·) := by
  have hskip : cs.dropWhile (· != 0x0a) = [] := by
    rw [List.dropWhile_eq_nil_iff]
    intro d hd
    rw [bne_iff_ne]
    rintro rfl
    exact hcs hd
  have hnone : ∀ x : Except TokenFault (List Token), x.map (([] : List Token) ++ ·) = x := by
    intro x
    cases x <;> rfl
  rw [tokens, nextToken]
  by_cases hcomma : c = 0x2c
  · rw [if_pos (by simp [hcomma]), if_pos hcomma]
    exact (hnone _).symm
  · rw [if_neg (by simp [hblank, hcomma]), if_neg hcomma]
    cases markOf? c with
    | some m => rfl
    | none =>
      dsimp only
      split
      · rw [hskip]
        show _ = (tokens []).map _
        rw [tokens_nil]
        rfl
      · split
        · generalize (if c = 0x2d then _ else _ : Option Int64) = value
          cases value <;> rfl
        · split <;> rfl

/-- Over a line the pass takes the tokens of the line. -/
theorem passFrom_line {l rest : List UInt8} (hl : 0x0a ∉ l)
    (hrest : ∀ c, rest.head? = some c → c = 0x0a) (n : Nat) (line : List Token) :
    passFrom n line (l ++ rest) =
      (tokens l).mapError (n, ·) >>= fun ts => passFrom n (line ++ ts) rest := by
  -- on what is left of the line: a token can be longer than one byte
  induction hlen : l.length using Nat.strongRecOn generalizing l line with
  | ind k ih =>
    cases l with
    | nil =>
      rw [tokens_nil]
      show passFrom n line rest = passFrom n (line ++ []) rest
      rw [List.append_nil]
    | cons c cs =>
      have hcs : 0x0a ∉ cs := fun h => hl (List.mem_cons_of_mem c h)
      have hc : c ≠ 0x0a := fun h => hl (h ▸ List.mem_cons_self)
      rw [List.length_cons] at hlen
      rw [List.cons_append, passFrom]
      by_cases hblank : isBlank c = true
      · rw [if_pos hblank, ih cs.length (by omega) hcs line rfl]
        conv_rhs => rw [tokens, if_pos (by simp [hblank])]
      · rw [if_neg hblank, if_neg hc, tokens_cons hblank hcs]
        split
        · rename_i e he
          rw [nextToken_append hrest] at he
          cases hnext : nextToken c cs with
          | ok p => rw [hnext] at he; cases he
          | error e' => rw [hnext] at he; cases he; rfl
        · rename_i t rest' he
          rw [nextToken_append hrest] at he
          obtain ⟨⟨t, cs'⟩, hnext, heq⟩ := map_eq_ok.mp he
          cases heq
          have hsuffix := suffix_of_nextToken hnext
          have hshorter := hsuffix.length_le
          rw [ih cs'.length (by omega) (fun h => hcs (hsuffix.subset h)) _ rfl, hnext]
          show _ = Except.bind (Except.mapError _ ((tokens cs').map _)) _
          cases tokens cs' with
          | error e => rfl
          | ok ts =>
            show passFrom n (line ++ t.toList ++ ts) rest = passFrom n (line ++ (t.toList ++ ts)) rest
            rw [List.append_assoc]

/-- The lines that one pass finds are those of the text cut at its newlines. -/
theorem passFrom_eq (n : Nat) (text : List UInt8) :
    passFrom n [] text = numberedLines n (cutLines text) := by
  -- on the lines: the first one is up to the first newline, if there is any
  induction hlen : text.length using Nat.strongRecOn generalizing n text with
  | ind k ih =>
    by_cases hnew : 0x0a ∈ text
    · obtain ⟨line, rest, rfl, hline⟩ := List.eq_append_cons_of_mem hnew
      rw [cutLines_append hline, numberedLines, passFrom_line hline (by simp)]
      cases tokens line with
      | error e => rfl
      | ok ts =>
        show passFrom n ([] ++ ts) (0x0a :: rest) = _
        rw [List.nil_append, passFrom, if_neg (by decide), if_pos rfl,
          ih rest.length (by simp at hlen; omega) (n + 1) rest rfl]
        cases ts with
        | nil => cases numberedLines (n + 1) (cutLines rest) <;> rfl
        | cons t ts => rfl
    · obtain ⟨l, ls, hcut, -, hput⟩ := cutLines_spec []
      cases hcut
      have hline := hput text hnew
      rw [List.append_nil] at hline
      have hrest : ∀ c, ([] : List UInt8).head? = some c → c = 0x0a := by simp
      have hpass := passFrom_line hnew hrest n []
      rw [List.append_nil] at hpass
      rw [hpass, hline, numberedLines]
      cases tokens text with
      | error e => rfl
      | ok ts =>
        show passFrom n ([] ++ ts) [] = _
        rw [List.nil_append, passFrom]
        cases ts <;> rfl

/-! ## Lines -/

def Line.later (k : Nat) (l : Line) : Line := { l with number := l.number + k }

theorem cutLines_join (a b : List UInt8) :
    cutLines (a ++ 0x0a :: b) = cutLines a ++ cutLines b := by
  induction a with
  | nil => rfl
  | cons c a ih =>
    rw [List.cons_append, cutLines, cutLines]
    by_cases hc : c = 0x0a
    · rw [if_pos hc, if_pos hc, ih]
      rfl
    · rw [if_neg hc, if_neg hc, ih]
      obtain ⟨l, ls, hcut, -⟩ := cutLines_spec a
      rw [hcut]
      rfl

/-- A text has one line more than newlines. -/
theorem length_cutLines (a : List UInt8) : (cutLines a).length = a.count 0x0a + 1 := by
  induction a with
  | nil => rfl
  | cons c a ih =>
    rw [cutLines]
    by_cases hc : c = 0x0a
    · rw [if_pos hc, List.length_cons, ih, hc, List.count_cons_self]
    · rw [if_neg hc, List.count_cons_of_ne hc, ← ih]
      obtain ⟨l, ls, hcut, -⟩ := cutLines_spec a
      rw [hcut]
      rfl

theorem numberedLines_append (n : Nat) (xs ys : List (List UInt8)) :
    numberedLines n (xs ++ ys) =
      numberedLines n xs >>= fun ls => (numberedLines (n + xs.length) ys).map (ls ++ ·) := by
  induction xs generalizing n with
  | nil =>
    show numberedLines n ys = (numberedLines n ys).map ([] ++ ·)
    cases numberedLines n ys <;> rfl
  | cons x xs ih =>
    rw [List.cons_append, numberedLines, numberedLines]
    cases tokens x with
    | error e => rfl
    | ok ts =>
      dsimp only
      rw [ih, List.length_cons, show n + 1 + xs.length = n + (xs.length + 1) by omega]
      split
      · rfl
      · cases numberedLines (n + 1) xs with
        | error e => rfl
        | ok ls => cases numberedLines (n + (xs.length + 1)) ys <;> rfl

/-- Where the numbers start makes no other difference. -/
theorem numberedLines_later (n k : Nat) (xs : List (List UInt8)) :
    numberedLines (n + k) xs =
      ((numberedLines n xs).mapError fun e => (e.1 + k, e.2)).map (List.map (Line.later k)) := by
  induction xs generalizing n with
  | nil => rfl
  | cons x xs ih =>
    rw [numberedLines, numberedLines]
    cases tokens x with
    | error e => rfl
    | ok ts =>
      dsimp only
      rw [Nat.add_right_comm, ih]
      split
      · rfl
      · cases numberedLines (n + 1) xs <;> rfl

/-- The lines of two texts with a newline between them, and the first fault if there is one. -/
theorem linesOf_join (a b : List UInt8) :
    linesOf (a ++ 0x0a :: b) = linesOf a >>= fun la =>
      ((linesOf b).mapError fun e => (e.1 + (a.count 0x0a + 1), e.2)).map
        fun lb => la ++ lb.map (Line.later (a.count 0x0a + 1)) := by
  unfold linesOf
  rw [cutLines_join, numberedLines_append, length_cutLines, numberedLines_later]
  cases numberedLines 1 (cutLines a) with
  | error e => rfl
  | ok la => cases numberedLines 1 (cutLines b) <;> rfl

theorem linesOf_join_eq_ok {a b : List UInt8} {ls : List Line} :
    linesOf (a ++ 0x0a :: b) = .ok ls ↔ ∃ la lb, linesOf a = .ok la ∧ linesOf b = .ok lb ∧
      ls = la ++ lb.map (Line.later (a.count 0x0a + 1)) := by
  rw [linesOf_join, bind_eq_ok]
  constructor
  · rintro ⟨la, hla, h⟩
    obtain ⟨lb, hlb, rfl⟩ := map_eq_ok.mp h
    refine ⟨la, lb, hla, ?_, rfl⟩
    cases hb : linesOf b with
    | error e => rw [hb] at hlb; cases hlb
    | ok lb' => rw [hb] at hlb; exact hlb
  · rintro ⟨la, lb, hla, hlb, rfl⟩
    refine ⟨la, hla, ?_⟩
    rw [hlb]
    rfl

/-! ## Functions -/

/-- The error, if the lines of the text had numbers that are higher by `k`. -/
def ReadError.later (k : Nat) : ReadError → ReadError
  | line n f => line (n + k) f
  | instr g n f => instr g (n + k) f
  | redeclared g => redeclared g

theorem declare_later (k : Nat) (d : Draft) (ls : List Line) :
    d.declare (ls.map (Line.later k)) = (d.declare ls).mapError (ReadError.later k) := by
  fun_induction Draft.declare d ls with
  | case1 => rfl
  | case2 d l ls hl ih =>
    rw [List.map_cons, Draft.declare, show (l.later k).label? = none from hl]
    exact ih
  | case3 d l ls n hl hold =>
    rw [List.map_cons, Draft.declare, show (l.later k).label? = some n from hl]
    dsimp only
    rw [if_pos hold]
    rfl
  | case4 d l ls n hl hnew ih =>
    rw [List.map_cons, Draft.declare, show (l.later k).label? = some n from hl]
    dsimp only
    rw [if_neg hnew]
    exact ih

theorem step_later (k : Nat) (d : Draft) (l : Line) :
    d.step (l.later k) = (d.step l).mapError (ReadError.later k) := by
  unfold Draft.step
  rw [show (l.later k).label? = l.label? from rfl, show (l.later k).tokens = l.tokens from rfl]
  split
  · rfl
  · split
    · rfl
    · split <;> rfl

theorem foldlM_step_later (k : Nat) (d : Draft) (ls : List Line) :
    (ls.map (Line.later k)).foldlM Draft.step d =
      (ls.foldlM Draft.step d).mapError (ReadError.later k) := by
  induction ls generalizing d with
  | nil => rfl
  | cons l ls ih =>
    rw [List.map_cons, List.foldlM_cons, List.foldlM_cons, step_later]
    cases d.step l with
    | error e => rfl
    | ok d' => exact ih d'

theorem enter_later (k : Nat) (d : Draft) (header : Line) (entry : Option String) :
    d.enter (header.later k) entry = (d.enter header entry).mapError (ReadError.later k) := by
  unfold Draft.enter
  split
  · rfl
  · split <;> rfl

/-- A function is read the same wherever it stands, but for the lines that errors name. -/
theorem readBody_later (k : Nat) (header : Line) (name : String) (entry : Option String)
    (body : List Line) :
    readBody (header.later k) name entry (body.map (Line.later k)) =
      (readBody header name entry body).mapError (ReadError.later k) := by
  unfold readBody
  rw [declare_later]
  cases Draft.declare { graph := { name := name } } body with
  | error e => rfl
  | ok d =>
    show (if _ then _ else _) = Except.mapError _ (if _ then _ else _)
    split
    · rfl
    · show (d.enter (header.later k) entry >>= _) = Except.mapError _ (d.enter header entry >>= _)
      rw [enter_later]
      cases d.enter header entry with
      | error e => rfl
      | ok d' =>
        show (List.foldlM Draft.step d' (body.map _) >>= _) =
          Except.mapError _ (body.foldlM Draft.step d' >>= _)
        rw [foldlM_step_later]
        cases body.foldlM Draft.step d' <;> rfl

theorem readFunctions_later (k : Nat) (done : List Graph) (ls : List Line) :
    readFunctions done (ls.map (Line.later k)) =
      (readFunctions done ls).mapError (ReadError.later k) := by
  have htake : ∀ ls : List Line, (ls.map (Line.later k)).takeWhile (fun l => !l.isClosing) =
      (ls.takeWhile (fun l => !l.isClosing)).map (Line.later k) :=
    fun ls => List.takeWhile_map
  have hdrop : ∀ ls : List Line, (ls.map (Line.later k)).dropWhile (fun l => !l.isClosing) =
      (ls.dropWhile (fun l => !l.isClosing)).map (Line.later k) :=
    fun ls => List.dropWhile_map
  fun_induction readFunctions done ls with
  | case1 =>
    rw [List.map_nil, readFunctions]
    rfl
  | case2 done header rest f hheader =>
    rw [List.map_cons, readFunctions, show readHeader (header.later k).tokens = _ from hheader]
    rfl
  | case3 done header rest name entry hheader hopen =>
    rw [List.map_cons, readFunctions, show readHeader (header.later k).tokens = _ from hheader]
    simp only [hdrop, hopen]
    rfl
  | case4 done header rest name entry hheader close after hclose e hbody =>
    rw [List.map_cons, readFunctions, show readHeader (header.later k).tokens = _ from hheader]
    simp only [hdrop, htake, hclose, List.map_cons, readBody_later, hbody]
    rfl
  | case5 done header rest name entry hheader close after hclose g hbody hold =>
    rw [List.map_cons, readFunctions, show readHeader (header.later k).tokens = _ from hheader]
    simp only [hdrop, htake, hclose, List.map_cons, readBody_later, hbody]
    exact if_pos hold
  | case6 done header rest name entry hheader close after hclose g hbody hnew ih =>
    rw [List.map_cons, readFunctions, show readHeader (header.later k).tokens = _ from hheader]
    simp only [hdrop, htake, hclose, List.map_cons, readBody_later, hbody]
    rw [hclose] at ih
    exact (if_neg hnew).trans ih

/-- A name that no function has is one that none of their names equals. -/
theorem notMem_names {gs : List Graph} {name : String}
    (h : ¬ gs.any (fun f => f.name == name) = true) : name ∉ gs.map (·.name) := by
  intro hmem
  obtain ⟨f, hf, hname⟩ := List.mem_map.mp hmem
  exact h (List.any_eq_true.mpr ⟨f, hf, beq_iff_eq.mpr hname⟩)

/-- Functions that are read leave all lines after them unread. -/
theorem readFunctions_append {done gs : List Graph} {ls : List Line}
    (h : readFunctions done ls = .ok gs) (more : List Line) :
    readFunctions done (ls ++ more) = readFunctions gs more := by
  fun_induction readFunctions done ls with
  | case1 =>
    cases h
    rfl
  | case2 => cases h
  | case3 => cases h
  | case4 => cases h
  | case5 => cases h
  | case6 done header rest name entry hheader close after hclose g hbody hnew ih =>
    obtain ⟨hsplit, hclosing, hopen⟩ := split_at_closing hclose
    rw [hclose] at ih h
    rw [hsplit, List.cons_append, List.append_assoc, List.cons_append,
      readFunctions_cons hheader hopen hclosing hbody (notMem_names hnew)]
    exact ih h

/-- Functions that can be read alone can be read after others, up to the first whose name one of
the others has. -/
theorem readFunctions_after {base all : List Graph} {ls : List Line}
    (hplain : ∀ l ∈ ls, l.Plain) (h : readFunctions base ls = .ok all) :
    ∃ gs, all = base ++ gs ∧ ∀ done : List Graph, readFunctions (done ++ base) ls =
      match gs.find? (fun g => decide (g.name ∈ done.map (·.name))) with
      | none => .ok (done ++ all)
      | some g => .error (.redeclared g.name) := by
  fun_induction readFunctions base ls with
  | case1 base =>
    cases h
    refine ⟨[], (List.append_nil _).symm, ?_⟩
    intro done
    rw [readFunctions]
    rfl
  | case2 => cases h
  | case3 => cases h
  | case4 => cases h
  | case5 => cases h
  | case6 base header rest name entry hheader close after hclose g hbody hnew ih =>
    have hrest : ∀ l ∈ rest, l.Plain := fun l hl => hplain l (List.mem_cons_of_mem header hl)
    have hname : g.name = name :=
      name_of_readBody (hplain header List.mem_cons_self name (readHeader_ok hheader))
        (fun l hl => hrest l ((List.takeWhile_sublist _).subset hl)) hbody
    obtain ⟨gs, rfl, hgs⟩ :=
      ih (fun l hl => hrest l ((List.dropWhile_sublist _).subset (List.mem_of_mem_tail hl))) h
    refine ⟨g :: gs, by simp, ?_⟩
    intro done
    rw [readFunctions]
    simp only [hheader, hclose, hbody]
    by_cases hold : g.name ∈ done.map (·.name)
    · -- the name is taken, and this is the first of these functions
      have hany : (done ++ base).any (fun f => f.name == name) = true := by
        obtain ⟨f, hf, hsame⟩ := List.mem_map.mp hold
        rw [List.any_eq_true]
        exact ⟨f, List.mem_append_left base hf, beq_iff_eq.mpr (hsame.trans hname)⟩
      rw [if_pos hany, List.find?_cons_of_pos (by simpa using hold), ← hname]
    · have hany : ¬ (done ++ base).any (fun f => f.name == name) = true := by
        rw [List.any_append, Bool.or_eq_true]
        rintro (hmem | hmem)
        · obtain ⟨f, hf, hsame⟩ := List.any_eq_true.mp hmem
          exact hold (List.mem_map.mpr ⟨f, hf, (beq_iff_eq.mp hsame).trans hname.symm⟩)
        · exact hnew hmem
      rw [if_neg hany, List.find?_cons_of_neg (by simpa using hold), List.append_assoc, ← hgs done,
        hclose]

/-! ## Programs -/

theorem read_eq_ok {path : String} {text : List UInt8} {p : Program} :
    read path text = .ok p ↔ ∃ ls, linesOf text = .ok ls ∧
      readFunctions [] ls = .ok p.functions ∧ p.path = path := by
  unfold read
  constructor
  · intro h
    split at h
    · cases h
    · rename_i ls hls
      obtain ⟨gs, hgs, rfl⟩ := map_eq_ok.mp h
      exact ⟨ls, hls, hgs, rfl⟩
  · rintro ⟨ls, hls, hgs, rfl⟩
    rw [hls]
    exact map_eq_ok.mpr ⟨p.functions, hgs, rfl⟩

/-- Two programs in one text are one program, up to the first function of the second that has a
name of the first. -/
theorem read_join {pathA pathB : String} {a b : List UInt8} {pa pb : Program}
    (ha : read pathA a = .ok pa) (hb : read pathB b = .ok pb) (path : String) :
    read path (a ++ 0x0a :: b) =
      match pb.functions.find? (fun g => decide (g.name ∈ pa.functions.map (·.name))) with
      | none => .ok { path := path, functions := pa.functions ++ pb.functions }
      | some g => .error (.redeclared g.name) := by
  obtain ⟨la, hla, hfa, -⟩ := read_eq_ok.mp ha
  obtain ⟨lb, hlb, hfb, -⟩ := read_eq_ok.mp hb
  have hlines := linesOf_join_eq_ok.mpr ⟨la, lb, hla, hlb, rfl⟩
  obtain ⟨gs, hgs, hafter⟩ := readFunctions_after (plain_of_numberedLines hlb) hfb
  rw [List.nil_append] at hgs
  have hread := hafter pa.functions
  rw [List.append_nil, ← hgs] at hread
  unfold read
  rw [hlines]
  dsimp only
  rw [readFunctions_append hfa, readFunctions_later, hread]
  split <;> rfl

/-- The lines of a text are what one pass over its bytes finds. Of two texts with a newline
between them the lines are those of both, and if both are programs, so are they together, unless
they share the name of a function. -/
theorem two_texts_are_read_one_after_the_other (a b : List UInt8) :
    (∀ text, linesOf text = passFrom 1 [] text) ∧
    (∀ ls, linesOf (a ++ 0x0a :: b) = .ok ls ↔
      ∃ la lb, linesOf a = .ok la ∧ linesOf b = .ok lb ∧
        ls = la ++ lb.map (Line.later (a.count 0x0a + 1))) ∧
    ∀ (pathA pathB path : String) (pa pb : Program), read pathA a = .ok pa →
      read pathB b = .ok pb →
      ((∃ p, read path (a ++ 0x0a :: b) = .ok p) ↔
        ∀ name ∈ pa.functions.map (·.name), name ∉ pb.functions.map (·.name)) ∧
      (∀ p, read path (a ++ 0x0a :: b) = .ok p →
        p = { path := path, functions := pa.functions ++ pb.functions }) ∧
      ∀ e, read path (a ++ 0x0a :: b) = .error e → ∃ g ∈ pb.functions,
        g.name ∈ pa.functions.map (·.name) ∧ e = .redeclared g.name := by
  refine ⟨fun text => (passFrom_eq 1 text).symm, fun ls => linesOf_join_eq_ok, ?_⟩
  intro pathA pathB path pa pb ha hb
  rw [read_join ha hb path]
  cases hclash : pb.functions.find? (fun g => decide (g.name ∈ pa.functions.map (·.name))) with
  | none =>
    have hnone := List.find?_eq_none.mp hclash
    refine ⟨⟨?_, fun _ => ⟨_, rfl⟩⟩, ?_, fun e h => by cases h⟩
    · rintro - name hname hmem
      obtain ⟨g, hg, rfl⟩ := List.mem_map.mp hmem
      exact hnone g hg (decide_eq_true hname)
    · intro p h
      cases h
      rfl
  | some g =>
    have hg := List.mem_of_find?_eq_some hclash
    have hold : g.name ∈ pa.functions.map (·.name) := by simpa using List.find?_some hclash
    refine ⟨⟨?_, ?_⟩, ?_, ?_⟩
    · rintro ⟨p, h⟩
      cases h
    · intro h
      exact absurd (List.mem_map_of_mem hg) (h g.name hold)
    · intro p h
      cases h
    · intro e h
      cases h
      exact ⟨g, hg, hold, rfl⟩

/-- A text that ends in a comment, without a newline. -/
def remarkText : List UInt8 :=
  bytesOf "\nfunc less \x7b\nin: // one, two\n\n n = arg 0\n m = sub n n\n ret m\n\x7d // \x7d -1 /"

/-- A text that starts with empty lines. -/
def lateText : List UInt8 :=
  bytesOf "\n \n//9\nfunc main entry go \x7b\nend:\n ret\ngo:\n br end\n\x7d\n"

/-- The function of the first text. -/
def remark : Graph := Outline.graph {
  name := "less"
  blocks := [("in", [.arg 0, .binary .sub 0 0, .ret [1]])]
  entry := some 0 }

/-- The function of the second text. -/
def late : Graph := Outline.graph {
  name := "main"
  blocks := [("end", [.ret []]), ("go", [.br 0])]
  entry := some 1 }

theorem a_remark_and_a_late_start_are_read_as_one :
    read "less" remarkText = .ok ⟨"less", [remark]⟩ ∧ read "main" lateText = .ok ⟨"main", [late]⟩ ∧
      read "both" (remarkText ++ 0x0a :: lateText) = .ok ⟨"both", [remark, late]⟩ ∧
      read "twice" (remarkText ++ 0x0a :: remarkText) = .error (.redeclared "less") ∧
      ∃ la lb, linesOf remarkText = .ok la ∧ linesOf lateText = .ok lb ∧
        (la ++ lb.map (Line.later 8)).map (·.number) = [2, 3, 5, 6, 7, 8, 12, 13, 14, 15, 16, 17] ∧
        linesOf (remarkText ++ 0x0a :: lateText) = .ok (la ++ lb.map (Line.later 8)) := by
  have hremark : read "less" remarkText = .ok ⟨"less", [remark]⟩ := by decide +kernel
  have hlate : read "main" lateText = .ok ⟨"main", [late]⟩ := by decide +kernel
  obtain ⟨-, hlines, hboth⟩ := two_texts_are_read_one_after_the_other remarkText lateText
  obtain ⟨-, -, htwice⟩ := two_texts_are_read_one_after_the_other remarkText remarkText
  obtain ⟨hok, heq, -⟩ := hboth _ _ "both" _ _ hremark hlate
  obtain ⟨hsame, -, herror⟩ := htwice _ _ "twice" _ _ hremark hremark
  refine ⟨hremark, hlate, ?_, ?_, ?_⟩
  · obtain ⟨p, hp⟩ := hok.mpr (by decide)
    rw [hp, heq p hp]
    rfl
  · cases h : read "twice" (remarkText ++ 0x0a :: remarkText) with
    | ok p => exact absurd (hsame.mp ⟨p, h⟩) (by decide)
    | error e =>
      obtain ⟨g, hg, -, rfl⟩ := herror e h
      rw [List.mem_singleton.mp hg]
      rfl
  · obtain ⟨la, hla, -⟩ := read_eq_ok.mp hremark
    obtain ⟨lb, hlb, -⟩ := read_eq_ok.mp hlate
    refine ⟨la, lb, hla, hlb, ?_, (hlines _).mpr ⟨la, lb, hla, hlb, rfl⟩⟩
    have hnumbers : (linesOf remarkText).toOption.map (List.map (·.number)) =
        some [2, 3, 5, 6, 7, 8] ∧ (linesOf lateText).toOption.map (List.map (·.number)) =
        some [4, 5, 6, 7, 8, 9] := by decide +kernel
    rw [hla, hlb] at hnumbers
    have hlater : (lb.map (Line.later 8)).map (·.number) = (lb.map (·.number)).map (· + 8) := by
      simp [Line.later]
    rw [List.map_append, hlater, Option.some.inj hnumbers.1, Option.some.inj hnumbers.2]
    rfl

end FlowGraph.Text

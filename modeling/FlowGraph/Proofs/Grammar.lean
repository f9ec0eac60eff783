import FlowGraph.Proofs.Lexing

/-!
The grammar of program texts. A text is cut into lines of tokens by rules, one
for each kind of thing that can stand in it, and the lines that have tokens are
those of functions, one after the other. Nothing here says how a text is read.

The first result is on the tokens: the cuts of a text are what the reader makes
of its lines, one by one.
-/

namespace FlowGraph.Text

/-! ## Tokens -/

def charOf (b : UInt8) : Char := Char.ofNat b.toNat

def Blank (b : UInt8) : Prop := charOf b ∈ [' ', '\t', '\r']
deriving Decidable

def Digit (b : UInt8) : Prop := (charOf b).isDigit
deriving Decidable

def NameStart (b : UInt8) : Prop := (charOf b).isAlpha ∨ charOf b = '_'
deriving Decidable

def NamePart (b : UInt8) : Prop := (charOf b).isAlphanum ∨ charOf b ∈ ['_', '.']
deriving Decidable

def Mark.byte : Mark → UInt8
  | openBrace => 0x7b
  | closeBrace => 0x7d
  | colon => 0x3a
  | equals => 0x3d

/-- The text stands in lines of these tokens. Blanks, commas and comments leave no token. A
name is followed by no byte that it could go on with, a number by no digit, and a comment by
the end of its line. -/
inductive Cuts : List UInt8 → List (List Token) → Prop
  | done : Cuts [] [[]]
  | newline {rest : List UInt8} {ls : List (List Token)} :
      Cuts rest ls → Cuts (0x0a :: rest) ([] :: ls)
  | blank {c : UInt8} {rest : List UInt8} {l : List Token} {ls : List (List Token)} :
      Blank c → Cuts rest (l :: ls) → Cuts (c :: rest) (l :: ls)
  | comma {rest : List UInt8} {l : List Token} {ls : List (List Token)} :
      Cuts rest (l :: ls) → Cuts (0x2c :: rest) (l :: ls)
  | comment {cs rest : List UInt8} {l : List Token} {ls : List (List Token)} :
      0x0a ∉ cs → (∀ c, rest.head? = some c → c = 0x0a) → Cuts rest (l :: ls) →
      Cuts (0x2f :: 0x2f :: cs ++ rest) (l :: ls)
  | mark {rest : List UInt8} {l : List Token} {ls : List (List Token)} (m : Mark) :
      Cuts rest (l :: ls) → Cuts (m.byte :: rest) ((.mark m :: l) :: ls)
  | ident {c : UInt8} {cs rest : List UInt8} {l : List Token} {ls : List (List Token)} :
      NameStart c → (∀ b ∈ cs, NamePart b) → (∀ b, rest.head? = some b → ¬ NamePart b) →
      Cuts rest (l :: ls) →
      Cuts (c :: cs ++ rest) ((.ident (String.ofList ((c :: cs).map charOf)) :: l) :: ls)
  | number {ds rest : List UInt8} {l : List Token} {ls : List (List Token)} {x : Int64} :
      ds ≠ [] → (∀ d ∈ ds, Digit d) → (∀ b, rest.head? = some b → ¬ Digit b) →
      x.toInt = Nat.ofDigitChars 10 (ds.map charOf) 0 →
      Cuts rest (l :: ls) → Cuts (ds ++ rest) ((.number x :: l) :: ls)
  | negative {ds rest : List UInt8} {l : List Token} {ls : List (List Token)} {x : Int64} :
      ds ≠ [] → (∀ d ∈ ds, Digit d) → (∀ b, rest.head? = some b → ¬ Digit b) →
      x.toInt = -(Nat.ofDigitChars 10 (ds.map charOf) 0 : Int) →
      Cuts rest (l :: ls) → Cuts (0x2d :: ds ++ rest) ((.number x :: l) :: ls)

/-! ## Functions -/

/-- An operation with its operands, of the kinds and in the number that it takes, which are
among these labels and values. The flag says whether it gives a value. -/
inductive IsOperation (labels values : List String) : Bool → List Token → Prop
  | const (x : Int64) : IsOperation labels values true [.ident "const", .number x]
  | arg {x : Int64} : 0 ≤ x.toInt → IsOperation labels values true [.ident "arg", .number x]
  | binary {w x y : String} : w ∈ ["add", "sub", "mul"] → x ∈ values → y ∈ values →
      IsOperation labels values true [.ident w, .ident x, .ident y]
  | cmp {c x y : String} : c ∈ ["eq", "ne", "lt", "le", "gt", "ge"] → x ∈ values → y ∈ values →
      IsOperation labels values true [.ident "cmp", .ident c, .ident x, .ident y]
  | call (f : String) {vs : List String} : (∀ v ∈ vs, v ∈ values) →
      IsOperation labels values true (.ident "call" :: .ident f :: vs.map .ident)
  | br {l : String} : l ∈ labels → IsOperation labels values false [.ident "br", .ident l]
  | brif {c yes no : String} : c ∈ values → yes ∈ labels → no ∈ labels →
      IsOperation labels values false [.ident "brif", .ident c, .ident yes, .ident no]
  | ret : IsOperation labels values false [.ident "ret"]
  | retValue {v : String} : v ∈ values → IsOperation labels values false [.ident "ret", .ident v]

/-- An instruction, with the name that it gives its value, if it does. -/
inductive IsInstr (labels values : List String) : Option String → List Token → Prop
  | plain {gives : Bool} {l : List Token} : IsOperation labels values gives l →
      IsInstr labels values none l
  | named {n : String} {l : List Token} : n ∉ values → IsOperation labels values true l →
      IsInstr labels values (some n) (.ident n :: .mark .equals :: l)

/-- The lines of a body after its first label, where these values are defined. Each is a label or
an instruction, whose value is defined in the lines after it. -/
inductive IsBody (labels : List String) : List String → List (List Token) → Prop
  | nil {values : List String} : IsBody labels values []
  | label {values : List String} {ls : List (List Token)} (n : String) :
      IsBody labels values ls → IsBody labels values ([.ident n, .mark .colon] :: ls)
  | instr {values : List String} {given : Option String} {l : List Token}
      {ls : List (List Token)} : IsInstr labels values given l →
      IsBody labels (values ++ given.toList) ls → IsBody labels values (l :: ls)

/-- A function as it stands in a text: its name, the label of its entry if it gives one, and
the lines of its body. -/
structure Func where
  name : String
  entry : Option String
  -- the lines between the header and the closing brace
  body : List (List Token)

/-- The label that a line declares. -/
def labelOf? : List Token → Option String
  | [.ident n, .mark .colon] => some n
  | _ => none

namespace Func

def header (f : Func) : List Token :=
  match f.entry with
  | none => [.ident "func", .ident f.name, .mark .openBrace]
  | some l => [.ident "func", .ident f.name, .ident "entry", .ident l, .mark .openBrace]

/-- All lines, from the header to the closing brace. -/
def lines (f : Func) : List (List Token) := f.header :: (f.body ++ [[.mark .closeBrace]])

def labels (f : Func) : List String := f.body.filterMap labelOf?

/-- The function is as it has to be. -/
structure Proper (f : Func) : Prop where
  -- the closing brace is the first line of that kind
  inside : ∀ l ∈ f.body, l ≠ [.mark .closeBrace]
  -- the first line is a label
  starts : ∃ n rest, f.body = [.ident n, .mark .colon] :: rest
  distinct : f.labels.Nodup
  entry : ∀ l, f.entry = some l → l ∈ f.labels
  -- every line is a label or an instruction
  body : IsBody f.labels [] f.body

end Func

/-- The text is that of a program. -/
def IsProgramText (text : List UInt8) : Prop :=
  ∃ ls, Cuts text ls ∧ ∃ fs : List Func,
    ls.filter (fun l => !l.isEmpty) = fs.flatMap Func.lines ∧ (fs.map (·.name)).Nodup ∧
      ∀ f ∈ fs, f.Proper

/-! ## Cuts and lines -/

theorem isBlank_iff : ∀ b, isBlank b = true ↔ Blank b :=
  forall_byte (by decide +kernel)

theorem isDigit_iff : ∀ b, isDigit b = true ↔ Digit b :=
  forall_byte (by decide +kernel)

theorem isIdentStart_iff : ∀ b, isIdentStart b = true ↔ NameStart b :=
  forall_byte (by decide +kernel)

theorem isIdentRest_iff : ∀ b, isIdentRest b = true ↔ NamePart b :=
  forall_byte (by decide +kernel)

/-- The value of digits is that of their characters. -/
theorem digitsValue_eq {ds : List UInt8} (h : ∀ d ∈ ds, Digit d) :
    digitsValue ds = Nat.ofDigitChars 10 (ds.map charOf) 0 := by
  have hback : ∀ b, UInt8.ofNat (charOf b).toNat = b := forall_byte (by decide +kernel)
  have hmap : (ds.map charOf).map (fun c => UInt8.ofNat c.toNat) = ds := by
    rw [List.map_map]
    exact List.map_id'' hback ds
  have hdigits : ∀ c ∈ ds.map charOf, c.isDigit = true := by
    intro c hc
    obtain ⟨d, hd, rfl⟩ := List.mem_map.mp hc
    exact h d hd
  rw [← digitsValue_map hdigits, hmap]
  rfl

theorem markOf?_eq_some (m : Mark) (c : UInt8) : markOf? c = some m ↔ c = m.byte := by
  cases m <;> grind [markOf?, Mark.byte]

theorem Lexed.comma {bs : List UInt8} {ts : List Token} (h : Lexed bs ts) :
    Lexed (0x2c :: bs) ts := by
  refine ⟨?_, by simp [h.2]⟩
  rw [tokens]
  exact h.1

theorem Lexed.comment {cs : List UInt8} (hcs : 0x0a ∉ cs) : Lexed (0x2f :: 0x2f :: cs) [] := by
  refine ⟨?_, by simp [hcs]⟩
  have hblank : (isBlank 0x2f || (0x2f : UInt8) == 0x2c) = false := by decide
  have hmark : markOf? 0x2f = none := by decide
  rw [tokens, hblank, hmark]
  simp

/-- A text has a first line, which is where the text starts, and what is put before the text
is put before this line. -/
theorem cutLines_spec (rest : List UInt8) :
    ∃ l ls, cutLines rest = l :: ls ∧ (∀ c, l.head? = some c → rest.head? = some c) ∧
      ∀ cs, 0x0a ∉ cs → cutLines (cs ++ rest) = (cs ++ l) :: ls := by
  have hput : ∀ {rest l ls}, cutLines rest = l :: ls → ∀ cs, 0x0a ∉ cs →
      cutLines (cs ++ rest) = (cs ++ l) :: ls := by
    intro rest l ls h cs hcs
    induction cs with
    | nil => exact h
    | cons c cs ih =>
      have hc : c ≠ 0x0a := fun he => hcs (he ▸ List.mem_cons_self)
      rw [List.cons_append, cutLines, if_neg hc, ih fun hmem => hcs (List.mem_cons_of_mem c hmem)]
      rfl
  cases rest with
  | nil => exact ⟨[], [], rfl, by simp, hput rfl⟩
  | cons c rest =>
    by_cases hc : c = 0x0a
    · have hcut : cutLines (c :: rest) = [] :: cutLines rest := by rw [cutLines, if_pos hc]
      exact ⟨[], cutLines rest, hcut, by simp, hput hcut⟩
    · have hcut : ∃ l ls, cutLines (c :: rest) = (c :: l) :: ls := by
        rw [cutLines, if_neg hc]
        split
        · exact ⟨[], [], rfl⟩
        · exact ⟨_, _, rfl⟩
      obtain ⟨l, ls, hcut⟩ := hcut
      exact ⟨c :: l, ls, hcut, by simp, hput hcut⟩

/-- What one rule adds before a text is added to its first line. -/
theorem lexed_piece (cs : List UInt8) (hcs : 0x0a ∉ cs) {rest : List UInt8} {l l' : List Token}
    {ls : List (List Token)} (h : List.Forall₂ Lexed (cutLines rest) (l :: ls))
    (hpiece : ∀ bs, (∀ c, bs.head? = some c → rest.head? = some c) → Lexed bs l →
      Lexed (cs ++ bs) l') :
    List.Forall₂ Lexed (cutLines (cs ++ rest)) (l' :: ls) := by
  obtain ⟨bs, bss, hcut, hhead, hput⟩ := cutLines_spec rest
  rw [hcut] at h
  rw [hput cs hcs]
  cases h with
  | cons hone hrest => exact .cons (hpiece bs hhead hone) hrest

theorem newline_ne_mark (m : Mark) : (0x0a : UInt8) ≠ m.byte := by
  cases m <;> decide

theorem Cuts.lexed {text : List UInt8} {ls : List (List Token)} (h : Cuts text ls) :
    List.Forall₂ Lexed (cutLines text) ls := by
  induction h with
  | done => exact .cons .nil .nil
  | newline _ ih => exact .cons .nil ih
  | @blank c rest l ls hc _ ih =>
    rw [← isBlank_iff] at hc
    have hne : (0x0a : UInt8) ∉ [c] := by
      rw [List.mem_singleton]
      rintro rfl
      cases hc
    exact lexed_piece [c] hne ih fun bs _ hbs => .blank hc hbs
  | comma _ ih => exact lexed_piece [0x2c] (by decide) ih fun bs _ hbs => .comma hbs
  | @comment cs rest l ls hcs hend _ ih =>
    apply lexed_piece (0x2f :: 0x2f :: cs) (by simpa using hcs) ih
    intro bs hhead hbs
    -- nothing is left of the line after the comment
    have hnil : bs = [] := by
      cases bs with
      | nil => rfl
      | cons c bs =>
        have hc := hend c (hhead c rfl)
        exact absurd (hc ▸ List.mem_cons_self) hbs.2
    subst hnil
    have hl : l = [] := by
      have := hbs.1
      rw [tokens] at this
      cases this
      rfl
    rw [hl, List.append_nil]
    exact .comment hcs
  | mark m _ ih =>
    apply lexed_piece [m.byte] (by simpa using newline_ne_mark m) ih
    exact fun bs _ hbs => .mark ((markOf?_eq_some m _).mpr rfl) hbs
  | @ident c cs rest l ls hc hcs hstop _ ih =>
    simp only [← isIdentStart_iff, ← isIdentRest_iff, Bool.not_eq_true] at hc hcs hstop
    have hall := isIdentRest_of_mem hc hcs
    have hbytes : bytesOf (asciiText (c :: cs)) = c :: cs :=
      bytesOf_asciiText fun b hb => (isIdentRest_lt b (hall b hb)).1
    apply lexed_piece (c :: cs) (fun hmem => (isIdentRest_lt _ (hall _ hmem)).2 rfl) ih
    intro bs hhead hbs
    have hident := Lexed.ident ⟨c, cs, hc, hcs, rfl⟩ hbs fun b hb => hstop b (hhead b hb)
    rwa [hbytes] at hident
  | number hne hds hstop hx _ ih =>
    rw [← digitsValue_eq hds] at hx
    simp only [← isDigit_iff, Bool.not_eq_true] at hds hstop
    apply lexed_piece _ (Lexed.newline_notMem_digits hds) ih
    intro bs hhead hbs
    exact .digits hne hds (numberOf?_eq_some.mpr hx.symm) hbs fun b hb => hstop b (hhead b hb)
  | @negative ds rest l ls x hne hds hstop hx _ ih =>
    rw [← digitsValue_eq hds] at hx
    simp only [← isDigit_iff, Bool.not_eq_true] at hds hstop
    apply lexed_piece (0x2d :: ds) (by simpa using Lexed.newline_notMem_digits hds) ih
    intro bs hhead hbs
    exact .negative hne hds (numberOf?_eq_some.mpr hx.symm) hbs fun b hb => hstop b (hhead b hb)

/-! ## Lines and cuts -/

/-- After the bytes of a class that a newline is not of, a line has no such byte. -/
theorem notNext_dropWhile {p : UInt8 → Bool} (hp : p 0x0a = false) (cs : List UInt8)
    {rest : List UInt8} (hrest : ∀ c, rest.head? = some c → c = 0x0a) :
    ∀ c, (cs.dropWhile p ++ rest).head? = some c → ¬ p c = true := by
  intro c hc
  rw [Bool.not_eq_true]
  have hnot := List.head?_dropWhile_not p cs
  cases hdrop : cs.dropWhile p with
  | nil =>
    rw [hdrop, List.nil_append] at hc
    rw [hrest c hc]
    exact hp
  | cons d ds =>
    rw [hdrop] at hc hnot
    cases hc
    exact hnot

/-- The tokens of a line and the cuts of the lines after it. -/
theorem cuts_line {line : List UInt8} {ts : List Token} (h : tokens line = .ok ts)
    (hline : 0x0a ∉ line) {rest : List UInt8} {ls : List (List Token)}
    (hrest : ∀ c, rest.head? = some c → c = 0x0a) (hcuts : Cuts rest ([] :: ls)) :
    Cuts (line ++ rest) (ts :: ls) := by
  fun_induction tokens line generalizing ts with
  | case1 =>
    cases h
    exact hcuts
  | case2 c cs hblank ih =>
    have hcs := ih h (fun hmem => hline (List.mem_cons_of_mem c hmem))
    rcases Bool.or_eq_true_iff.mp hblank with hc | hc
    · exact .blank ((isBlank_iff c).mp hc) hcs
    · rw [beq_iff_eq.mp hc]
      exact .comma hcs
  | case3 c cs hblank m hmark ih =>
    obtain ⟨ts', hts', rfl⟩ := map_eq_ok.mp h
    rw [(markOf?_eq_some m c).mp hmark]
    exact .mark m (ih hts' (fun hmem => hline (List.mem_cons_of_mem c hmem)))
  | case4 c cs hblank hmark hcomment =>
    cases h
    obtain ⟨rfl, hnext⟩ := hcomment
    obtain ⟨cs', rfl⟩ := List.head?_eq_some_iff.mp hnext
    exact .comment (fun hmem => hline (by simp [hmem])) hrest hcuts
  | case5 => cases h
  | case6 c cs hblank hmark hcomment hdigit digits value x hvalue =>
    rename_i ih
    obtain ⟨ts', hts', rfl⟩ := map_eq_ok.mp h
    have hlater := ih hts' fun hmem =>
      hline (List.mem_cons_of_mem c ((List.dropWhile_sublist _).subset hmem))
    have hstop := notNext_dropWhile (p := isDigit) (by decide) cs hrest
    have hall : ∀ d ∈ digits, isDigit d = true := List.all_eq_true.mp List.all_takeWhile
    simp only [isDigit_iff] at hstop hall
    have hsplit : c :: cs ++ rest = c :: digits ++ (cs.dropWhile isDigit ++ rest) := by
      rw [List.cons_append, List.cons_append, ← List.append_assoc,
        List.takeWhile_append_dropWhile]
    rw [hsplit]
    by_cases hminus : c = 0x2d
    · -- a minus sign is the start of a number only before a digit
      subst hminus
      have hne : digits ≠ [] := by
        cases cs with
        | nil => simp at hdigit; cases hdigit
        | cons d cs =>
          have hd : isDigit d = true := by simpa [isDigit] using hdigit
          simp [digits, hd]
      refine .negative hne hall hstop ?_ hlater
      rw [← digitsValue_eq hall]
      exact (numberOf?_eq_some.mp hvalue).symm
    · have hc : isDigit c = true := by simpa [hminus] using hdigit
      have hvalue' : numberOf? false (c :: digits) = some x := by simpa [value, hminus] using hvalue
      have hmore : ∀ d ∈ c :: digits, Digit d :=
        List.forall_mem_cons.mpr ⟨(isDigit_iff c).mp hc, hall⟩
      refine .number (by simp) hmore hstop ?_ hlater
      rw [← digitsValue_eq hmore]
      exact (numberOf?_eq_some.mp hvalue').symm
  | case7 c cs hblank hmark hcomment hdigit hstart ih =>
    obtain ⟨ts', hts', rfl⟩ := map_eq_ok.mp h
    have hlater := ih hts' fun hmem =>
      hline (List.mem_cons_of_mem c ((List.dropWhile_sublist _).subset hmem))
    have hstop := notNext_dropWhile (p := isIdentRest) (by decide) cs hrest
    have hall : ∀ b ∈ cs.takeWhile isIdentRest, isIdentRest b = true :=
      List.all_eq_true.mp List.all_takeWhile
    simp only [isIdentRest_iff] at hstop hall
    have hsplit : c :: cs ++ rest =
        c :: cs.takeWhile isIdentRest ++ (cs.dropWhile isIdentRest ++ rest) := by
      rw [List.cons_append, List.cons_append, ← List.append_assoc,
        List.takeWhile_append_dropWhile]
    rw [hsplit]
    exact .ident ((isIdentStart_iff c).mp hstart) hall hstop hlater
  | case8 => cases h

theorem cuts_of_lines {text : List UInt8} {ls : List (List Token)}
    (h : List.Forall₂ (fun bs ts => tokens bs = .ok ts) (cutLines text) ls) : Cuts text ls := by
  -- on the lines: the first one is up to the first newline, if there is any
  induction hlen : text.length using Nat.strongRecOn generalizing text ls with
  | ind n ih =>
    by_cases hnew : 0x0a ∈ text
    · obtain ⟨line, rest, rfl, hline⟩ := List.eq_append_cons_of_mem hnew
      rw [cutLines_append hline] at h
      cases h with
      | cons hone hrest =>
        have hcuts := ih rest.length (by simp at hlen; omega) hrest rfl
        exact cuts_line hone hline (by simp) (.newline hcuts)
    · obtain ⟨l, ls', hcut, -, hput⟩ := cutLines_spec []
      cases hcut
      have hline := hput text hnew
      rw [List.append_nil] at hline
      rw [hline] at h
      cases h with
      | cons hone hrest =>
        cases hrest
        have := cuts_line hone hnew (by simp) Cuts.done
        rwa [List.append_nil] at this

/-- The lines of a text are its cuts, as far as they have tokens. -/
theorem linesOf_of_cuts {text : List UInt8} {tss : List (List Token)} (h : Cuts text tss) :
    ∃ ls, linesOf text = .ok ls ∧ ls.map (·.tokens) = tss.filter (fun ts => !ts.isEmpty) :=
  numberedLines_of_tokens (h.lexed.imp fun _ _ hone => hone.1) 1

theorem cuts_of_linesOf {text : List UInt8} {ls : List Line} (h : linesOf text = .ok ls) :
    ∃ tss, Cuts text tss ∧ ls.map (·.tokens) = tss.filter (fun ts => !ts.isEmpty) := by
  obtain ⟨tss, htss⟩ := tokens_of_numberedLines h
  have hcuts := cuts_of_lines htss
  obtain ⟨ls', hls', hmap⟩ := linesOf_of_cuts hcuts
  rw [h] at hls'
  cases hls'
  exact ⟨tss, hcuts, hmap⟩

end FlowGraph.Text

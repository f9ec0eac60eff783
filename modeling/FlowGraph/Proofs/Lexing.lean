import FlowGraph.Proofs.Outline
import FlowGraph.Text.Bytes

/-!
Texts cut into tokens. A line that is put together from names, numbers and
marks, with blanks where they are needed, is cut into just these tokens.
-/

namespace FlowGraph.Text

/-! ## Bytes of texts -/

theorem bytesOf_append (s t : String) : bytesOf (s ++ t) = bytesOf s ++ bytesOf t := by
  unfold bytesOf
  rw [String.toUTF8_eq_toByteArray, String.toByteArray_append, ByteArray.data_append,
    Array.toList_append]
  rfl

theorem bytesOf_ofList (cs : List Char) :
    bytesOf (String.ofList cs) = cs.flatMap String.utf8EncodeChar := by
  unfold bytesOf
  rw [String.toUTF8_eq_toByteArray, String.toByteArray_ofList, List.utf8Encode,
    List.toList_data_toByteArray]

/-- A byte below 128 is the character of its number. -/
theorem utf8EncodeChar_byte {b : UInt8} (h : b < 0x80) :
    String.utf8EncodeChar (Char.ofNat b.toNat) = [b] := by
  have hall : ∀ n, n < 128 → String.utf8EncodeChar (Char.ofNat n) = [UInt8.ofNat n] := by
    decide +kernel
  have hb := hall b.toNat (UInt8.lt_iff_toNat_lt.mp h)
  rwa [UInt8.ofNat_toNat] at hb

theorem bytesOf_asciiText {bs : List UInt8} (h : ∀ b ∈ bs, b < 0x80) :
    bytesOf (asciiText bs) = bs := by
  unfold asciiText
  rw [bytesOf_ofList, List.flatMap_map]
  induction bs with
  | nil => rfl
  | cons b bs ih =>
    rw [List.flatMap_cons, utf8EncodeChar_byte (h b List.mem_cons_self),
      ih fun c hc => h c (List.mem_cons_of_mem b hc)]
    rfl

/-- A fact about all bytes, checked one by one. -/
theorem forall_byte {p : UInt8 → Prop} (h : ∀ n, n < 256 → p (UInt8.ofNat n)) (b : UInt8) :
    p b := by
  have hb := h b.toNat b.toNat_lt
  rwa [UInt8.ofNat_toNat] at hb

theorem isIdentRest_lt (b : UInt8) : isIdentRest b = true → b < 0x80 ∧ b ≠ 0x0a := by
  grind [isIdentRest, isLetter, isDigit]

theorem isIdentRest_of_start (b : UInt8) : isIdentStart b = true → isIdentRest b = true := by
  grind [isIdentStart, isIdentRest]

/-- A byte that a name can start with is nothing else. -/
theorem isIdentStart_alone {c : UInt8} (h : isIdentStart c = true) :
    (isBlank c || c == 0x2c) = false ∧ markOf? c = none ∧ c ≠ 0x2f ∧ isDigit c = false ∧
      c ≠ 0x2d ∧ c ≠ 0x0a := by
  unfold isIdentStart isLetter at h
  refine ⟨?_, ?_, ?_, ?_, ?_, ?_⟩ <;> grind [isBlank, markOf?, isDigit]

/-- A digit is nothing else that a token can start with. -/
theorem isDigit_alone {c : UInt8} (h : isDigit c = true) :
    (isBlank c || c == 0x2c) = false ∧ markOf? c = none ∧ c ≠ 0x2f ∧ c ≠ 0x2d := by
  unfold isDigit at h
  grind [isBlank, markOf?]

theorem isIdentRest_of_digit (b : UInt8) : isDigit b = true → isIdentRest b = true := by
  grind [isIdentRest]

theorem isIdentRest_of_mem {c : UInt8} {rest : List UInt8} (hc : isIdentStart c = true)
    (hrest : ∀ b ∈ rest, isIdentRest b = true) : ∀ b ∈ c :: rest, isIdentRest b = true := by
  intro b hb
  rcases List.mem_cons.mp hb with rfl | hb
  · exact isIdentRest_of_start b hc
  · exact hrest b hb

/-- The bytes of a name. -/
theorem IsIdent.bytes {n : String} (h : IsIdent n) :
    ∃ c rest, isIdentStart c = true ∧ (∀ b ∈ rest, isIdentRest b = true) ∧
      n = asciiText (c :: rest) ∧ bytesOf n = c :: rest := by
  obtain ⟨c, rest, hc, hrest, rfl⟩ := h
  refine ⟨c, rest, hc, hrest, rfl, bytesOf_asciiText ?_⟩
  exact fun b hb => (isIdentRest_lt b (isIdentRest_of_mem hc hrest b hb)).1

/-- Whether a name is one can be seen from its bytes. -/
instance (n : String) : Decidable (IsIdent n) :=
  decidable_of_iff (∃ c ∈ (bytesOf n).head?, isIdentStart c = true ∧
      (bytesOf n).tail.all isIdentRest = true ∧ n = asciiText (bytesOf n)) <| by
    simp only [List.all_eq_true]
    constructor
    · rintro ⟨c, hc, hstart, hrest, hn⟩
      obtain ⟨rest, hbytes⟩ := List.head?_eq_some_iff.mp hc
      rw [hbytes] at hrest hn
      exact ⟨c, rest, hstart, hrest, hn⟩
    · intro h
      obtain ⟨c, rest, hc, hrest, hn, hbytes⟩ := h.bytes
      rw [hbytes]
      exact ⟨c, rfl, hc, hrest, hn⟩

/-! ## Decimal numbers -/

/-- A digit as a character and as a byte. -/
theorem digit_char {c : Char} (h : c.isDigit = true) :
    String.utf8EncodeChar c = [UInt8.ofNat c.toNat] ∧ isDigit (UInt8.ofNat c.toNat) = true ∧
      (UInt8.ofNat c.toNat).toNat = c.toNat := by
  -- all digits are below this code, so all of them can be tried
  have hall : ∀ n, n < 58 → (Char.ofNat n).isDigit = true →
      String.utf8EncodeChar (Char.ofNat n) = [UInt8.ofNat n] ∧ isDigit (UInt8.ofNat n) = true ∧
        (UInt8.ofNat n).toNat = n := by
    decide +kernel
  have hlt : c.toNat < 58 := by
    unfold Char.isDigit at h
    simp only [Bool.and_eq_true, decide_eq_true_eq] at h
    exact Nat.lt_succ_of_le h.2
  have hc := hall c.toNat hlt
  rw [Char.ofNat_toNat] at hc
  exact hc h

theorem digitsValue_map {cs : List Char} (h : ∀ c ∈ cs, c.isDigit = true) (n : Nat) :
    (cs.map (fun c => UInt8.ofNat c.toNat)).foldl (fun n d => 10 * n + (d.toNat - 0x30)) n =
      Nat.ofDigitChars 10 cs n := by
  induction cs generalizing n with
  | nil => rfl
  | cons c cs ih =>
    rw [List.map_cons, List.foldl_cons, ih fun d hd => h d (List.mem_cons_of_mem c hd),
      Nat.ofDigitChars_cons, (digit_char (h c List.mem_cons_self)).2.2]
    rfl

theorem isDigit_of_toDigits {n : Nat} : ∀ c ∈ Nat.toDigits 10 n, c.isDigit = true :=
  fun _ hc => Nat.isDigit_of_mem_toDigits (by decide) (by decide) hc

theorem bytesOf_repr_eq (n : Nat) :
    bytesOf n.repr = (Nat.toDigits 10 n).map (fun c => UInt8.ofNat c.toNat) := by
  have hdigits := @isDigit_of_toDigits n
  rw [Nat.repr_eq_ofList_toDigits, bytesOf_ofList]
  generalize Nat.toDigits 10 n = cs at hdigits
  induction cs with
  | nil => rfl
  | cons c cs ih =>
    rw [List.flatMap_cons, (digit_char (hdigits c List.mem_cons_self)).1,
      ih fun d hd => hdigits d (List.mem_cons_of_mem c hd)]
    rfl

/-- The digits of a number, as bytes. -/
theorem bytesOf_repr (n : Nat) :
    bytesOf n.repr ≠ [] ∧ (∀ d ∈ bytesOf n.repr, isDigit d = true) ∧
      digitsValue (bytesOf n.repr) = n := by
  rw [bytesOf_repr_eq]
  refine ⟨by simp, ?_, ?_⟩
  · intro d hd
    obtain ⟨c, hc, rfl⟩ := List.mem_map.mp hd
    exact (digit_char (isDigit_of_toDigits c hc)).2.1
  · unfold digitsValue
    rw [digitsValue_map isDigit_of_toDigits, Nat.ofDigitChars_ten_toDigits]

theorem asciiText_bytesOf_repr (n : Nat) : asciiText (bytesOf n.repr) = n.repr := by
  unfold asciiText
  rw [bytesOf_repr_eq, List.map_map, Nat.repr_eq_ofList_toDigits]
  congr 1
  refine (List.map_congr_left ?_).trans (List.map_id _)
  intro c hc
  show Char.ofNat (UInt8.ofNat c.toNat).toNat = c
  rw [(digit_char (isDigit_of_toDigits c hc)).2.2, Char.ofNat_toNat]

theorem numberOf?_eq_some {negative : Bool} {ds : List UInt8} {x : Int64} :
    numberOf? negative ds = some x ↔
      (if negative then -(digitsValue ds : Int) else digitsValue ds) = x.toInt := by
  unfold numberOf?
  dsimp only
  generalize (if negative then -(digitsValue ds : Int) else digitsValue ds) = n
  constructor
  · intro h
    split at h
    · rename_i hfits
      cases h
      exact (Int64.toInt_ofInt_of_le hfits.1 (Int.lt_add_one_of_le hfits.2)).symm
    · cases h
  · rintro rfl
    rw [if_pos ⟨Int64.minValue_le_toInt x, Int64.toInt_le x⟩, Int64.ofInt_toInt]

/-! ## One line -/

/-- Nothing that a name or a number could go on with. -/
def Stops (bs : List UInt8) : Prop := ∀ c, bs.head? = some c → isIdentRest c = false

/-- Nor one that a number alone could go on with. -/
theorem Stops.digit {bs : List UInt8} (h : Stops bs) :
    ∀ c, bs.head? = some c → isDigit c = false := by
  intro c hc
  by_contra hd
  have := h c hc
  rw [isIdentRest_of_digit c (by simpa using hd)] at this
  cases this

theorem takeWhile_stops {p : UInt8 → Bool} {ds bs : List UInt8} (hds : ∀ d ∈ ds, p d = true)
    (hbs : ∀ c, bs.head? = some c → p c = false) :
    (ds ++ bs).takeWhile p = ds ∧ (ds ++ bs).dropWhile p = bs := by
  rw [List.takeWhile_append_of_pos hds, List.dropWhile_append_of_pos hds]
  cases bs with
  | nil => simp
  | cons c bs => simp [hbs c rfl]

/-- The bytes are a line of these tokens. -/
def Lexed (bs : List UInt8) (ts : List Token) : Prop := tokens bs = .ok ts ∧ 0x0a ∉ bs

namespace Lexed

variable {bs : List UInt8} {ts : List Token}

theorem nil : Lexed [] [] := ⟨tokens_nil, by simp⟩

theorem blank {c : UInt8} (hc : isBlank c = true) (h : Lexed bs ts) : Lexed (c :: bs) ts := by
  have hne : c ≠ 0x0a := by
    rintro rfl
    cases hc
  refine ⟨?_, by simp [hne.symm, h.2]⟩
  rw [tokens, hc]
  exact h.1

theorem mark {c : UInt8} {m : Mark} (hc : markOf? c = some m) (h : Lexed bs ts) :
    Lexed (c :: bs) (.mark m :: ts) := by
  have hblank : (isBlank c || c == 0x2c) = false := by grind [markOf?, isBlank]
  have hne : c ≠ 0x0a := by grind [markOf?]
  refine ⟨?_, by simp [hne.symm, h.2]⟩
  rw [tokens, hblank, hc, h.1]
  rfl

/-- A name is as long as it can be. -/
theorem ident {n : String} (hn : IsIdent n) (h : Lexed bs ts) (hbs : Stops bs) :
    Lexed (bytesOf n ++ bs) (.ident n :: ts) := by
  obtain ⟨c, rest, hc, hrest, hname, hbytes⟩ := hn.bytes
  obtain ⟨hblank, hmark, hslash, hdigit, hminus, hline⟩ := isIdentStart_alone hc
  obtain ⟨htake, hdrop⟩ := takeWhile_stops hrest hbs
  rw [hbytes]
  refine ⟨?_, ?_⟩
  · rw [List.cons_append, tokens, hblank, hmark]
    simp [hslash, hdigit, hminus, hc, htake, hdrop, h.1, hname, Except.map]
  · have hno : 0x0a ∉ rest := fun hmem => (isIdentRest_lt _ (hrest _ hmem)).2 rfl
    simp [hline.symm, hno, h.2]

theorem newline_notMem_digits {ds : List UInt8} (hds : ∀ d ∈ ds, isDigit d = true) :
    0x0a ∉ ds :=
  fun hmem => (isIdentRest_lt _ (isIdentRest_of_digit _ (hds _ hmem))).2 rfl

theorem digits {ds : List UInt8} (hne : ds ≠ []) (hds : ∀ d ∈ ds, isDigit d = true) {x : Int64}
    (hx : numberOf? false ds = some x) (h : Lexed bs ts)
    (hbs : ∀ c, bs.head? = some c → isDigit c = false) :
    Lexed (ds ++ bs) (.number x :: ts) := by
  obtain ⟨d, ds, rfl⟩ := List.exists_cons_of_ne_nil hne
  obtain ⟨hblank, hmark, hslash, hminus⟩ := isDigit_alone (hds d List.mem_cons_self)
  obtain ⟨htake, hdrop⟩ := takeWhile_stops
    (fun c hc => hds c (List.mem_cons_of_mem d hc)) hbs
  refine ⟨?_, ?_⟩
  · rw [List.cons_append, tokens, hblank, hmark]
    simp [hslash, hds d List.mem_cons_self, hminus, htake, hdrop, hx, h.1, Except.map]
  · simpa [h.2] using newline_notMem_digits hds

theorem negative {ds : List UInt8} (hne : ds ≠ []) (hds : ∀ d ∈ ds, isDigit d = true) {x : Int64}
    (hx : numberOf? true ds = some x) (h : Lexed bs ts)
    (hbs : ∀ c, bs.head? = some c → isDigit c = false) :
    Lexed (0x2d :: ds ++ bs) (.number x :: ts) := by
  obtain ⟨htake, hdrop⟩ := takeWhile_stops hds hbs
  refine ⟨?_, ?_⟩
  · have hhead : ((ds.head?.or bs.head?).map isDigit).getD false = true := by
      obtain ⟨d, ds, rfl⟩ := List.exists_cons_of_ne_nil hne
      simp [hds d List.mem_cons_self]
    have hblank : (isBlank 0x2d || (0x2d : UInt8) == 0x2c) = false := by decide
    have hmark : markOf? 0x2d = none := by decide
    rw [List.cons_append, tokens, hblank, hmark]
    simp [hhead, htake, hdrop, hx, h.1, Except.map]
  · have := newline_notMem_digits hds
    simp [this, h.2]

/-- A number is read as it is printed. -/
theorem number (x : Int64) (h : Lexed bs ts) (hbs : Stops bs) :
    Lexed (bytesOf (toString x.toInt) ++ bs) (.number x :: ts) := by
  rw [Int.toString_eq_repr, Int.repr_eq_if]
  split
  · rename_i hx
    obtain ⟨hne, hdigits, hvalue⟩ := bytesOf_repr x.toInt.toNat
    refine digits hne hdigits (numberOf?_eq_some.mpr ?_) h hbs.digit
    rw [hvalue]
    exact Int.toNat_of_nonneg hx
  · rename_i hx
    obtain ⟨hne, hdigits, hvalue⟩ := bytesOf_repr (-x.toInt).toNat
    rw [bytesOf_append, show bytesOf "-" = [0x2d] from rfl]
    refine negative hne hdigits (numberOf?_eq_some.mpr ?_) h hbs.digit
    rw [hvalue, if_pos rfl]
    omega

end Lexed

/-! ## Texts of lines -/

/-- The text is made of lines of these tokens, each with a newline after it. -/
def IsText (s : String) (tss : List (List Token)) : Prop :=
  ∃ bss, bytesOf s = bss.flatMap (· ++ [0x0a]) ∧ List.Forall₂ Lexed bss tss

namespace IsText

theorem nil : IsText "" [] := ⟨[], rfl, .nil⟩

theorem line {s : String} {ts : List Token} (h : Lexed (bytesOf s) ts) :
    IsText (s ++ "\n") [ts] := by
  refine ⟨[bytesOf s], ?_, .cons h .nil⟩
  rw [bytesOf_append, show bytesOf "\n" = [0x0a] from rfl]
  simp

theorem append {s t : String} {tss tss' : List (List Token)} (h : IsText s tss)
    (h' : IsText t tss') : IsText (s ++ t) (tss ++ tss') := by
  obtain ⟨bss, hs, hlexed⟩ := h
  obtain ⟨bss', ht, hlexed'⟩ := h'
  refine ⟨bss ++ bss', ?_, List.rel_append hlexed hlexed'⟩
  rw [bytesOf_append, hs, ht, List.flatMap_append]

end IsText

theorem cutLines_append {l : List UInt8} (h : 0x0a ∉ l) (rest : List UInt8) :
    cutLines (l ++ 0x0a :: rest) = l :: cutLines rest := by
  induction l with
  | nil => rfl
  | cons c l ih =>
    have hc : c ≠ 0x0a := fun he => h (he ▸ List.mem_cons_self)
    rw [List.cons_append, cutLines, if_neg hc, ih fun hmem => h (List.mem_cons_of_mem c hmem)]

theorem cutLines_flatMap {bss : List (List UInt8)} (h : ∀ bs ∈ bss, 0x0a ∉ bs) :
    cutLines (bss.flatMap (· ++ [0x0a])) = bss ++ [[]] := by
  induction bss with
  | nil => rfl
  | cons bs bss ih =>
    rw [List.flatMap_cons, List.append_assoc, List.singleton_append,
      cutLines_append (h bs List.mem_cons_self),
      ih fun bs' hbs' => h bs' (List.mem_cons_of_mem bs hbs')]
    rfl

/-- The lines that are numbered are those that have tokens. -/
theorem numberedLines_of_tokens {bss : List (List UInt8)} {tss : List (List Token)}
    (h : List.Forall₂ (fun bs ts => tokens bs = .ok ts) bss tss) (n : Nat) :
    ∃ ls, numberedLines n bss = .ok ls ∧
      ls.map (·.tokens) = tss.filter (fun ts => !ts.isEmpty) := by
  induction h generalizing n with
  | nil => exact ⟨[], rfl, rfl⟩
  | @cons bs ts bss tss hone _ ih =>
    obtain ⟨ls, hls, hmap⟩ := ih (n + 1)
    rw [numberedLines, hone]
    dsimp only
    cases ts with
    -- a line without tokens is dropped, but counted
    | nil => exact ⟨ls, hls, hmap⟩
    | cons t ts =>
      refine ⟨{ number := n, tokens := t :: ts } :: ls, ?_, ?_⟩
      · rw [hls]
        rfl
      · rw [List.map_cons, hmap]
        rfl

theorem tokens_of_numberedLines {n : Nat} {bss : List (List UInt8)} {ls : List Line}
    (h : numberedLines n bss = .ok ls) :
    ∃ tss, List.Forall₂ (fun bs ts => tokens bs = .ok ts) bss tss := by
  induction bss generalizing n ls with
  | nil => exact ⟨[], .nil⟩
  | cons bs bss ih =>
    unfold numberedLines at h
    split at h
    · cases h
    · rename_i ts hts
      dsimp only at h
      split at h
      · obtain ⟨tss, htss⟩ := ih h
        exact ⟨ts :: tss, .cons hts htss⟩
      · obtain ⟨ls', hls', -⟩ := map_eq_ok.mp h
        obtain ⟨tss, htss⟩ := ih hls'
        exact ⟨ts :: tss, .cons hts htss⟩

theorem IsText.linesOf {s : String} {tss : List (List Token)} (h : IsText s tss) :
    ∃ ls, Text.linesOf (bytesOf s) = .ok ls ∧
      ls.map (·.tokens) = tss.filter (fun ts => !ts.isEmpty) := by
  obtain ⟨bss, hs, hlexed⟩ := h
  have hnew : ∀ bs ∈ bss, 0x0a ∉ bs := by
    clear hs
    intro bs hbs
    induction hlexed with
    | nil => cases hbs
    | cons hone _ ih =>
      rcases List.mem_cons.mp hbs with rfl | hbs
      · exact hone.2
      · exact ih hbs
  -- the last line is what comes after the last newline, which is nothing
  have hlast : List.Forall₂ (fun bs ts => tokens bs = .ok ts) (bss ++ [[]]) (tss ++ [[]]) :=
    List.rel_append (hlexed.imp fun _ _ hone => hone.1) (.cons tokens_nil .nil)
  obtain ⟨ls, hls, hmap⟩ := numberedLines_of_tokens hlast 1
  unfold Text.linesOf
  rw [hs, cutLines_flatMap hnew]
  exact ⟨ls, hls, by simpa using hmap⟩

end FlowGraph.Text

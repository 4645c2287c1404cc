import MiniScheme.Proofs.Text.Decimal
import MiniScheme.Token.Lexer

/-!
# Lexemes

How the scanner goes through one lexeme, and what it guarantees of the tokens it emits.

## Main definitions

* `Token.Lexer.Delimited`: text that no atom before it can run into.
* `Token.Lexical`: what is true of every token that comes out of a text.

## Main statements

* `Token.Lexer.scan_lexeme`, `Token.Lexer.scan_string`: an atom or a string in front of other text.
* `Token.lexical_of_mem_ofSource`: the tokens of a text are lexical.
-/

namespace MiniScheme.Token

namespace Lexer

/-- Text that does not go on with an atomic character. -/
def Delimited (cs : List Char) : Prop := ∀ c ∈ cs.head?, role c ≠ .atomic

theorem delimited_nil : Delimited [] := by simp [Delimited]

theorem delimited_cons {c : Char} (h : role c ≠ .atomic) (cs : List Char) :
    Delimited (c :: cs) := by
  simpa [Delimited] using h

structure IsAtom (cs : List Char) : Prop where
  ne_nil : cs ≠ []
  atomic : ∀ c ∈ cs, role c = .atomic

theorem isBreak_of_atomic {c : Char} (h : role c = .atomic) : Text.isBreak c = false := by
  cases hb : Text.isBreak c with
  | false => rfl
  | true => simp [role, Text.isBlank_of_isBreak hb] at h

theorem role_of_isDigit {c : Char} (h : c.isDigit = true) : role c = .atomic := by
  have hc : 48 ≤ c.toNat ∧ c.toNat ≤ 57 := Char.isDigit_iff_toNat.mp h
  have hne : ∀ d : Char, d.toNat < 48 ∨ 57 < d.toNat → c ≠ d := by
    rintro d hd rfl
    omega
  have hblank : Text.isBlank c = false := by
    simp only [Text.isBlank, Bool.or_eq_false_iff, Bool.and_eq_false_iff, decide_eq_false_iff_not,
      beq_eq_false_iff_ne]
    omega
  simp only [role, hblank, hne '(' (by decide), hne ')' (by decide), hne '\'' (by decide),
    hne '"' (by decide), hne ';' (by decide), if_false, Bool.false_eq_true]

theorem isAtom_ofInteger (n : Int) : IsAtom (Text.ofInteger n) := by
  have hdigits : ∀ c ∈ Nat.toDigits 10 n.natAbs, role c = .atomic := fun c hc =>
    role_of_isDigit (Nat.isDigit_of_mem_toDigits (by decide) (by decide) hc)
  by_cases hn : n < 0
  · refine ⟨by simp [Text.ofInteger, hn], fun c hc => ?_⟩
    simp only [Text.ofInteger, hn, if_true, List.mem_cons] at hc
    rcases hc with rfl | hc
    · decide
    · exact hdigits c hc
  · exact ⟨by simp [Text.ofInteger, hn], by simpa [Text.ofInteger, hn] using hdigits⟩

/-! ## Going through a lexeme -/

variable (line : Int) (column : Nat)

theorem scan_cons (mode : Mode) (c : Char) (cs : List Char) :
    scan line mode column (c :: cs) =
      ((mode.step column c).1 ++ ·) <$> scan line (mode.step column c).2 (column + 1) cs := rfl

/-- What a character begins depends on its role alone. -/
theorem start_of_role {c : Char} {r : Role} :
    role c = r → start column c = match r with
      | .blank => ([], .between)
      | .openParen => ([.openParen], .between)
      | .closeParen => ([.closeParen], .between)
      | .quoteMark => ([.quoteMark], .between)
      | .stringMark => ([], .string column [])
      | .commentMark => ([], .comment)
      | .atomic => ([], .atom [c]) := by
  rintro rfl
  rfl

theorem scan_between {c : Char} {emitted : List Token} {next : Mode}
    (h : start column c = (emitted, next)) (cs : List Char) :
    scan line .between column (c :: cs) = (emitted ++ ·) <$> scan line next (column + 1) cs := by
  rw [scan_cons, Mode.step, h]

/-- What follows an atom is scanned as if the atom had not been there. -/
theorem scan_atom_delimited (collected : List Char) {cs : List Char} (h : Delimited cs) :
    scan line (.atom collected) column cs =
      (classify collected.reverse :: ·) <$> scan line .between column cs := by
  cases cs with
  | nil => rfl
  | cons c cs =>
    have hc : role c ≠ .atomic := h c rfl
    simp only [scan_cons, Mode.step, hc, if_false, Functor.map_map, List.cons_append]

theorem scan_atom_append (collected : List Char) {cs : List Char}
    (h : ∀ c ∈ cs, role c = .atomic) (rest : List Char) :
    scan line (.atom collected) column (cs ++ rest) =
      scan line (.atom (cs.reverse ++ collected)) (column + cs.length) rest := by
  induction cs generalizing collected column with
  | nil => rfl
  | cons c cs ih =>
    have hc : role c = .atomic := h c List.mem_cons_self
    rw [List.cons_append, scan_cons]
    simp only [Mode.step, hc, if_true, List.nil_append, id_map']
    rw [ih _ _ fun d hd => h d (List.mem_cons_of_mem _ hd)]
    simp [Nat.add_assoc, Nat.add_comm 1]

/-- An atom is the token of its characters. -/
theorem scan_lexeme {lexeme : List Char} (h : IsAtom lexeme) {rest : List Char}
    (hrest : Delimited rest) :
    scan line .between column (lexeme ++ rest) =
      (classify lexeme :: ·) <$> scan line .between (column + lexeme.length) rest := by
  obtain ⟨c, cs, rfl⟩ := List.exists_cons_of_ne_nil h.ne_nil
  have hc : role c = .atomic := h.atomic c List.mem_cons_self
  rw [List.cons_append, scan_between _ _ (start_of_role _ hc)]
  simp only [List.nil_append, id_map']
  rw [scan_atom_append _ _ _ fun d hd => h.atomic d (List.mem_cons_of_mem _ hd),
    scan_atom_delimited _ _ _ hrest]
  simp [Nat.add_assoc, Nat.add_comm 1]

theorem scan_string_append (opened : Nat) (collected : List Char) {cs : List Char}
    (h : ∀ c ∈ cs, c ≠ '"') (rest : List Char) :
    scan line (.string opened collected) column (cs ++ '"' :: rest) =
      (.string (String.ofList (collected.reverse ++ cs)) :: ·) <$>
        scan line .between (column + cs.length + 1) rest := by
  induction cs generalizing collected column with
  | nil => simp [scan_cons, Mode.step]
  | cons c cs ih =>
    have hc : c ≠ '"' := h c List.mem_cons_self
    rw [List.cons_append, scan_cons]
    simp only [Mode.step, hc, if_false, List.nil_append, id_map']
    rw [ih _ _ fun d hd => h d (List.mem_cons_of_mem _ hd)]
    simp [Nat.add_assoc, Nat.add_comm 1]

/-- A string is the token of what stands between its double quotes. -/
theorem scan_string {cs : List Char} (h : ∀ c ∈ cs, c ≠ '"') (rest : List Char) :
    scan line .between column ('"' :: (cs ++ '"' :: rest)) =
      (.string (String.ofList cs) :: ·) <$>
        scan line .between (column + 1 + cs.length + 1) rest := by
  have hrole : role '"' = .stringMark := by decide
  rw [scan_between _ _ (start_of_role _ hrole)]
  simp only [List.nil_append, id_map']
  rw [scan_string_append _ _ _ _ h]
  simp

/-! ## Texts of known tokens -/

/-- A text within one line that is cut into the given tokens, whatever delimited text comes after
it. -/
structure Scans (text : List Char) (ts : List Token) : Prop where
  unbroken : ∀ c ∈ text, Text.isBreak c = false
  cut : ∀ (line : Int) (column : Nat) (rest : List Char), Delimited rest →
    ∃ column', scan line .between column (text ++ rest) =
      (ts ++ ·) <$> scan line .between column' rest

theorem Scans.nil : Scans [] [] := ⟨by simp, fun _ column _ _ => ⟨column, by simp⟩⟩

theorem Scans.lexeme {lexeme : List Char} (h : IsAtom lexeme) : Scans lexeme [classify lexeme] where
  unbroken c hc := isBreak_of_atomic (h.atomic c hc)
  cut line column _ hrest := ⟨_, scan_lexeme line column h hrest⟩

theorem Scans.string {cs : List Char} (h : ∀ c ∈ cs, c ≠ '"' ∧ Text.isBreak c = false) :
    Scans ('"' :: (cs ++ ['"'])) [.string (String.ofList cs)] where
  unbroken c hc := by
    have hmark : Text.isBreak '"' = false := by decide
    simp only [List.mem_cons, List.mem_append, List.not_mem_nil, or_false] at hc
    rcases hc with rfl | hc | rfl
    · exact hmark
    · exact (h c hc).2
    · exact hmark
  cut line column rest _ := by
    refine ⟨column + 1 + cs.length + 1, ?_⟩
    simpa using scan_string line column (fun c hc => (h c hc).1) rest

/-- A character that begins nothing, in front of a text. -/
theorem Scans.cons {c : Char} {emitted ts : List Token} {text : List Char}
    (hc : ∀ column, start column c = (emitted, .between)) (hbreak : Text.isBreak c = false)
    (h : Scans text ts) : Scans (c :: text) (emitted ++ ts) where
  unbroken := by simpa [hbreak] using h.unbroken
  cut line column rest hrest := by
    obtain ⟨column', hscan⟩ := h.cut line (column + 1) rest hrest
    refine ⟨column', ?_⟩
    rw [List.cons_append, scan_between line column (hc column), hscan]
    simp [Functor.map_map]

theorem Scans.openParen {text : List Char} {ts : List Token} (h : Scans text ts) :
    Scans ('(' :: text) (.openParen :: ts) := by
  have hrole : role '(' = .openParen := by decide
  exact .cons (fun column => start_of_role column hrole) (by decide) h

theorem Scans.closeParen {text : List Char} {ts : List Token} (h : Scans text ts) :
    Scans (')' :: text) (.closeParen :: ts) := by
  have hrole : role ')' = .closeParen := by decide
  exact .cons (fun column => start_of_role column hrole) (by decide) h

theorem Scans.quoteMark {text : List Char} {ts : List Token} (h : Scans text ts) :
    Scans ('\'' :: text) (.quoteMark :: ts) := by
  have hrole : role '\'' = .quoteMark := by decide
  exact .cons (fun column => start_of_role column hrole) (by decide) h

theorem Scans.space {text : List Char} {ts : List Token} (h : Scans text ts) :
    Scans (' ' :: text) ts := by
  have hrole : role ' ' = .blank := by decide
  exact .cons (fun column => start_of_role column hrole) (by decide) h

theorem Scans.append {a b : List Char} {ts us : List Token} (ha : Scans a ts) (hb : Scans b us)
    (hdelimited : ∀ rest, Delimited (b ++ rest)) : Scans (a ++ b) (ts ++ us) where
  unbroken c hc := by
    rcases List.mem_append.mp hc with hc | hc
    · exact ha.unbroken c hc
    · exact hb.unbroken c hc
  cut line column rest hrest := by
    obtain ⟨middle, hfirst⟩ := ha.cut line column (b ++ rest) (hdelimited rest)
    obtain ⟨last, hsecond⟩ := hb.cut line middle rest hrest
    refine ⟨last, ?_⟩
    rw [List.append_assoc, hfirst, hsecond]
    simp [Functor.map_map]

end Lexer

/-- A text without line breaks is one line. -/
theorem lines_of_forall_not_isBreak {cs : List Char} (hne : cs ≠ [])
    (h : ∀ c ∈ cs, Text.isBreak c = false) : Text.lines cs = [cs] := by
  fun_induction Text.lines cs with
  | case1 => exact absurd rfl hne
  | case2 => exact absurd (h '\r' (by simp)) (by decide)
  | case3 c cs _ hc => exact absurd (h c (by simp)) (by simp [hc])
  | case4 c cs _ hc hlines ih =>
    cases cs with
    | nil => rfl
    | cons d ds => simp [ih (by simp) fun x hx => h x (by simp [hx])] at hlines
  | case5 c cs _ hc first rest hlines ih =>
    cases cs with
    | nil => simp [Text.lines] at hlines
    | cons d ds =>
      rw [ih (by simp) fun x hx => h x (List.mem_cons_of_mem _ hx)] at hlines
      cases hlines
      rfl

/-- The tokens of a text that is one line. -/
theorem ofSource_of_scans {text : List Char} {ts : List Token} (h : Lexer.Scans text ts)
    (hne : text ≠ []) : ofSource (String.ofList text) = .ok (ts ++ [.endOfLine]) := by
  obtain ⟨column, hscan⟩ := h.cut 1 1 [] Lexer.delimited_nil
  have hline : ofLine 1 text = .ok ts := by
    rw [List.append_nil] at hscan
    rw [ofLine, hscan]
    simp [Lexer.scan, Lexer.Mode.finish, Functor.map, Except.map]
  rw [ofSource, String.toList_ofList, lines_of_forall_not_isBreak hne h.unbroken]
  simp only [ofLines, hline]
  rfl

/-! ## What the scanner guarantees -/

/-- What is true of every token that comes out of a text. -/
def Lexical : Token → Prop
  | integer lexeme => Text.isInteger lexeme.toList = true
  | symbol name => Lexer.IsAtom name.toList ∧ classify name.toList = symbol name
  | string contents => ∀ c ∈ contents.toList, c ≠ '"' ∧ Text.isBreak c = false
  | _ => True

namespace Lexer

theorem lexical_classify {lexeme : List Char} (h : IsAtom lexeme) : (classify lexeme).Lexical := by
  unfold classify
  split
  · next hi => simpa [Lexical] using hi
  · next hi =>
    split
    · trivial
    · next ht =>
      split
      · trivial
      · next hf =>
        refine ⟨by simpa using h, ?_⟩
        simp [classify, hi, ht, hf]

/-- What is collected so far can still become a lexical token. -/
def Mode.Sound : Mode → Prop
  | .atom collected => IsAtom collected
  | .string _ collected => ∀ c ∈ collected, c ≠ '"' ∧ Text.isBreak c = false
  | _ => True

theorem IsAtom.reverse {cs : List Char} (h : IsAtom cs) : IsAtom cs.reverse :=
  ⟨by simpa using h.ne_nil, by simpa using h.atomic⟩

theorem start_sound (column : Nat) (c : Char) :
    (∀ t ∈ (start column c).1, t.Lexical) ∧ (start column c).2.Sound := by
  cases hr : role c with
  | atomic =>
    rw [start_of_role column hr]
    exact ⟨by simp, by simp, by simpa using hr⟩
  | _ => rw [start_of_role column hr]; simp [Lexical, Mode.Sound]

/-- A character that is no line break keeps what is collected sound and emits lexical tokens. -/
theorem step_sound {mode : Mode} (h : mode.Sound) (column : Nat) {c : Char}
    (hc : Text.isBreak c = false) :
    (∀ t ∈ (mode.step column c).1, t.Lexical) ∧ (mode.step column c).2.Sound := by
  cases mode with
  | between => exact start_sound column c
  | atom collected =>
    by_cases hr : role c = .atomic
    · simp only [Mode.step, hr, if_true]
      refine ⟨by simp, by simp, ?_⟩
      simpa [hr] using h.atomic
    · obtain ⟨hemitted, hnext⟩ := start_sound column c
      simp only [Mode.step, hr, if_false]
      refine ⟨fun t ht => ?_, hnext⟩
      rcases List.mem_cons.mp ht with rfl | ht
      · exact lexical_classify (IsAtom.reverse h)
      · exact hemitted t ht
  | string opened collected =>
    by_cases hq : c = '"'
    · simp only [Mode.step, hq, if_true]
      exact ⟨by simpa [Lexical, Mode.Sound] using h, trivial⟩
    · simp only [Mode.step, hq, if_false]
      exact ⟨by simp, by simpa [Mode.Sound, hq, hc] using h⟩
  | comment => exact ⟨by simp [Mode.step], trivial⟩

theorem finish_sound {mode : Mode} (h : mode.Sound) {line : Int} {ts : List Token}
    (hf : mode.finish line = .ok ts) : ∀ t ∈ ts, t.Lexical := by
  cases mode with
  | atom collected =>
    cases hf
    simpa using lexical_classify (IsAtom.reverse h)
  | string => cases hf
  | _ => cases hf; simp

theorem scan_sound {line : Int} {mode : Mode} (h : mode.Sound) {column : Nat} {cs : List Char}
    (hcs : ∀ c ∈ cs, Text.isBreak c = false) {ts : List Token}
    (hs : scan line mode column cs = .ok ts) : ∀ t ∈ ts, t.Lexical := by
  induction cs generalizing mode column ts with
  | nil => exact finish_sound h hs
  | cons c cs ih =>
    obtain ⟨hemitted, hnext⟩ := step_sound h column (hcs c List.mem_cons_self)
    rw [scan_cons] at hs
    cases hrest : scan line (mode.step column c).2 (column + 1) cs with
    | error e => simp [hrest, Functor.map, Except.map] at hs
    | ok us =>
      simp only [hrest, Functor.map, Except.map, Except.ok.injEq] at hs
      subst hs
      intro t ht
      rcases List.mem_append.mp ht with ht | ht
      · exact hemitted t ht
      · exact ih hnext (fun d hd => hcs d (List.mem_cons_of_mem _ hd)) hrest t ht

end Lexer

/-- No line holds a line break. -/
theorem isBreak_of_mem_lines {cs l : List Char} (hl : l ∈ Text.lines cs) :
    ∀ c ∈ l, Text.isBreak c = false := by
  fun_induction Text.lines cs generalizing l with
  | case1 => simp at hl
  | case2 cs ih =>
    rcases List.mem_cons.mp hl with rfl | hl
    · simp
    · exact ih hl
  | case3 c cs _ _ ih =>
    rcases List.mem_cons.mp hl with rfl | hl
    · simp
    · exact ih hl
  | case4 c cs _ hc _ ih =>
    obtain rfl := List.mem_singleton.mp hl
    simpa using hc
  | case5 c cs _ hc first rest hlines ih =>
    rw [hlines] at ih
    rcases List.mem_cons.mp hl with rfl | hl
    · intro d hd
      rcases List.mem_cons.mp hd with rfl | hd
      · simpa using hc
      · exact ih List.mem_cons_self d hd
    · exact ih (List.mem_cons_of_mem _ hl)

theorem lexical_of_mem_ofLines {line : Int} {ls : List (List Char)}
    (hls : ∀ l ∈ ls, ∀ c ∈ l, Text.isBreak c = false) {ts : List Token}
    (h : ofLines line ls = .ok ts) : ∀ t ∈ ts, t.Lexical := by
  induction ls generalizing line ts with
  | nil => cases h; simp
  | cons l ls ih =>
    rw [ofLines] at h
    cases hfirst : ofLine line l with
    | error e => rw [hfirst] at h; cases h
    | ok first =>
      cases hrest : ofLines (line + 1) ls with
      | error e => rw [hfirst, hrest] at h; cases h
      | ok rest =>
        rw [hfirst, hrest] at h
        cases h
        intro t ht
        rcases List.mem_append.mp ht with ht | ht
        · have hmode : Lexer.Mode.Sound .between := trivial
          exact Lexer.scan_sound hmode (hls l List.mem_cons_self) hfirst t ht
        · rcases List.mem_cons.mp ht with rfl | ht
          · trivial
          · exact ih (fun l' hl' => hls l' (List.mem_cons_of_mem _ hl')) hrest t ht

/-- Every token of a text is lexical. -/
theorem lexical_of_mem_ofSource {source : String} {ts : List Token}
    (h : ofSource source = .ok ts) : ∀ t ∈ ts, t.Lexical :=
  lexical_of_mem_ofLines (fun _ hl => isBreak_of_mem_lines hl) h

end MiniScheme.Token

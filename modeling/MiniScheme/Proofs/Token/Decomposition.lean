import Mathlib.Data.List.Forall2
import Mathlib.Data.List.TakeWhile
import MiniScheme.Proofs.Token.Lines

/-!
# Taking a line apart

A line consists of lexemes with blanks around them, and perhaps a comment at its end. A line that
can be taken apart in this way can be so in one way only, and the scanner finds it. In every other
line a string is opened and never closed, and the scanner says where.

## Main definitions

* `Token.Stands`: a token may stand in front of some text.
* `Token.Decomposition`: a line taken apart.
* `Token.FirstUnclosed`: a line with a string that is never closed.

## Main statements

* `Token.exists_stands`: a character that is no blank begins something.
* `Token.decomposition_or_unclosed`: there is no third kind of line.
* `Token.ofLine_ofSource_decomposition`: the scanner takes lines apart.
-/

namespace MiniScheme.Token

/-! ## Lexemes in a text -/

/-- The characters of which atoms consist: no blanks, and none of the five marks. -/
def isPlain (c : Char) : Bool := !Text.isBlank c && c ∉ ['(', ')', '\'', '"', ';']

/-- The tokens that may stand in front of some text. An atom goes on up to a character that is not
plain. -/
inductive Stands (after : List Char) : Token → Prop where
  | openParen : Stands after .openParen
  | closeParen : Stands after .closeParen
  | quoteMark : Stands after .quoteMark
  | string {contents : String} (h : '"' ∉ contents.toList) : Stands after (.string contents)
  | atom {lexeme : List Char} (hne : lexeme ≠ []) (hplain : ∀ c ∈ lexeme, isPlain c = true)
      (hmaximal : ∀ c ∈ after.head?, isPlain c = false) : Stands after (classify lexeme)

/-- The text of tokens, each with the blanks before it, in front of other text. -/
def spread (pieces : List (List Char × Token)) (rest : List Char) : List Char :=
  pieces.foldr (fun piece text => piece.1 ++ (piece.2.text.toList ++ text)) rest

def Fits (rest : List Char) : List (List Char × Token) → Prop
  | [] => True
  | (gap, t) :: pieces =>
    (∀ c ∈ gap, Text.isBlank c = true) ∧ t.Stands (spread pieces rest) ∧ Fits rest pieces

/-- A line taken apart: its tokens, each with the blanks before it, the blanks after them, and a
comment, which may be empty. -/
@[ext]
structure Decomposition (line : List Char) where
  pieces : List (List Char × Token)
  trailing : List Char
  comment : List Char
  text : spread pieces (trailing ++ comment) = line
  fits : Fits (trailing ++ comment) pieces
  blank : ∀ c ∈ trailing, Text.isBlank c = true
  mark : ∀ c ∈ comment.head?, c = ';'

def Decomposition.tokens {line : List Char} (d : Decomposition line) : List Token :=
  d.pieces.map Prod.snd

/-- A double quote in a line, with what stands before and after it, opens a string: what stands
before it can be taken apart, and it is not in a comment. -/
structure Opens (line before after : List Char) : Prop where
  text : line = before ++ '"' :: after
  outside : ∃ d : Decomposition before, d.comment = []

/-- The first double quote of a line that opens a string and is never closed. -/
structure FirstUnclosed (line before after : List Char) : Prop where
  opens : Opens line before after
  unclosed : '"' ∉ after
  first : ∀ before' after', Opens line before' after' → '"' ∉ after' →
    before.length ≤ before'.length

theorem role_eq_atomic_iff {c : Char} : Lexer.role c = .atomic ↔ isPlain c = true := by
  simp only [isPlain, Lexer.role]
  grind

theorem text_classify (lexeme : List Char) : (classify lexeme).text = String.ofList lexeme := by
  unfold classify
  split
  · rfl
  · split
    · next h => rw [h]; rfl
    · split
      · next h => rw [h]; rfl
      · rfl

/-- What may stand in front of some text may stand in front of the beginning of it. -/
theorem Stands.of_append {t : Token} {a b : List Char} (h : t.Stands (a ++ b)) : t.Stands a := by
  cases h with
  | openParen => exact .openParen
  | closeParen => exact .closeParen
  | quoteMark => exact .quoteMark
  | string h => exact .string h
  | atom hne hplain hmaximal =>
    refine .atom hne hplain fun c hc => hmaximal c ?_
    cases a with
    | nil => cases hc
    | cons d a => exact hc

/-- More text may follow, if it does not begin with a plain character. -/
theorem Stands.append {t : Token} {a b : List Char} (h : t.Stands a)
    (hb : ∀ c ∈ b.head?, isPlain c = false) : t.Stands (a ++ b) := by
  cases h with
  | openParen => exact .openParen
  | closeParen => exact .closeParen
  | quoteMark => exact .quoteMark
  | string h => exact .string h
  | atom hne hplain hmaximal =>
    refine .atom hne hplain ?_
    cases a with
    | nil => exact hb
    | cons d a => exact hmaximal

/-- No token begins with a blank. -/
theorem Stands.text_head {t : Token} {after : List Char} (h : t.Stands after) :
    ∃ c cs, t.text.toList = c :: cs ∧ Text.isBlank c = false := by
  cases h with
  | openParen => exact ⟨_, _, rfl, by decide⟩
  | closeParen => exact ⟨_, _, rfl, by decide⟩
  | quoteMark => exact ⟨_, _, rfl, by decide⟩
  | @string contents h => exact ⟨'"', contents.toList ++ ['"'], by simp [text], by decide⟩
  | @atom lexeme hne hplain hmaximal =>
    obtain ⟨c, cs, rfl⟩ := List.exists_cons_of_ne_nil hne
    have hc := hplain c List.mem_cons_self
    simp only [isPlain, Bool.and_eq_true, Bool.not_eq_true'] at hc
    exact ⟨c, cs, by rw [text_classify, String.toList_ofList], hc.1⟩

theorem spread_append (pieces : List (List Char × Token)) (a b : List Char) :
    spread pieces (a ++ b) = spread pieces a ++ b := by
  induction pieces with
  | nil => rfl
  | cons piece pieces ih =>
    simp only [spread, List.foldr_cons, List.append_assoc] at ih ⊢
    rw [ih]

theorem Fits.of_append {a b : List Char} {pieces : List (List Char × Token)}
    (h : Fits (a ++ b) pieces) : Fits a pieces := by
  induction pieces with
  | nil => trivial
  | cons piece pieces ih =>
    obtain ⟨hgap, hstands, hfits⟩ := h
    rw [spread_append] at hstands
    exact ⟨hgap, hstands.of_append, ih hfits⟩

theorem Fits.append {a b : List Char} {pieces : List (List Char × Token)} (h : Fits a pieces)
    (hb : ∀ c ∈ b.head?, isPlain c = false) : Fits (a ++ b) pieces := by
  induction pieces with
  | nil => trivial
  | cons piece pieces ih =>
    obtain ⟨hgap, hstands, hfits⟩ := h
    refine ⟨hgap, ?_, ih hfits⟩
    rw [spread_append]
    exact hstands.append hb

/-! ## Scanning a line that is taken apart -/

section Scan

open Lexer

variable (line : Int) (column : Nat)

theorem scan_blanks {gap : List Char} (h : ∀ c ∈ gap, Text.isBlank c = true) (rest : List Char) :
    scan line .between column (gap ++ rest) =
      scan line .between (column + gap.length) rest := by
  induction gap generalizing column with
  | nil => rfl
  | cons c gap ih =>
    obtain ⟨hc, hgap⟩ := List.forall_mem_cons.mp h
    have hrole : role c = .blank := if_pos hc
    rw [List.cons_append, scan_between _ _ (start_of_role _ hrole), ih _ hgap]
    simp [Nat.add_assoc, Nat.add_comm 1]

theorem Stands.scan {t : Token} {after : List Char} (h : t.Stands after) :
    scan line .between column (t.text.toList ++ after) =
      (t :: ·) <$> scan line .between (column + t.text.toList.length) after := by
  cases h with
  | openParen =>
    have hrole : role '(' = .openParen := by decide
    exact scan_between line column (start_of_role column hrole) after
  | closeParen =>
    have hrole : role ')' = .closeParen := by decide
    exact scan_between line column (start_of_role column hrole) after
  | quoteMark =>
    have hrole : role '\'' = .quoteMark := by decide
    exact scan_between line column (start_of_role column hrole) after
  | @string contents h =>
    have hscan := scan_string line column (fun c hc hq => h (hq ▸ hc)) after
    simpa [text, Nat.add_assoc, Nat.add_comm 1] using hscan
  | @atom lexeme hne hplain hmaximal =>
    have hatom : IsAtom lexeme := ⟨hne, fun c hc => role_eq_atomic_iff.mpr (hplain c hc)⟩
    have hafter : Delimited after := by
      intro c hc hrole
      rw [role_eq_atomic_iff, hmaximal c hc] at hrole
      cases hrole
    rw [text_classify, String.toList_ofList]
    exact scan_lexeme line column hatom hafter

theorem Fits.scan {rest : List Char} {pieces : List (List Char × Token)} (h : Fits rest pieces) :
    scan line .between column (spread pieces rest) =
      (pieces.map Prod.snd ++ ·) <$>
        scan line .between (column + (spread pieces []).length) rest := by
  induction pieces generalizing column with
  | nil => simp [spread]
  | cons piece pieces ih =>
    obtain ⟨gap, t⟩ := piece
    obtain ⟨hgap, hstands, hfits⟩ := h
    change scan line .between column (gap ++ (t.text.toList ++ spread pieces rest)) = _
    rw [scan_blanks line column hgap, hstands.scan, ih _ hfits]
    simp [spread, Functor.map_map, Nat.add_assoc]

theorem scan_comment (cs : List Char) : scan line .comment column cs = .ok [] := by
  induction cs generalizing column with
  | nil => rfl
  | cons c cs ih => rw [scan_cons, Mode.step, ih]; rfl

theorem scan_unclosed (opened : Nat) (collected : List Char) {cs : List Char} (h : '"' ∉ cs) :
    scan line (.string opened collected) column cs =
      .error ⟨line, opened, String.ofList ('"' :: (collected.reverse ++ cs))⟩ := by
  induction cs generalizing collected column with
  | nil => simp [Lexer.scan, Mode.finish]
  | cons c cs ih =>
    simp only [List.mem_cons, not_or] at h
    rw [scan_cons]
    simp only [Mode.step, if_neg (Ne.symm h.1), List.nil_append, id_map']
    rw [ih _ _ h.2]
    simp

end Scan

/-- What follows a line that is taken apart is scanned from the comment of that line on, if no atom
runs into it. -/
theorem Decomposition.scan_append {line rest : List Char} (d : Decomposition line)
    (h : ∀ c ∈ (d.comment ++ rest).head?, isPlain c = false) (number : Int) (column : Nat) :
    Lexer.scan number .between column (line ++ rest) =
      (d.tokens ++ ·) <$> Lexer.scan number .between
        (column + (spread d.pieces d.trailing).length) (d.comment ++ rest) := by
  have hfollowed : Fits (d.trailing ++ (d.comment ++ rest)) d.pieces := d.fits.of_append.append h
  have hlength : (spread d.pieces d.trailing).length =
      (spread d.pieces []).length + d.trailing.length := by
    rw [← List.nil_append d.trailing, spread_append]
    simp
  calc
    Lexer.scan number .between column (line ++ rest)
    _ = Lexer.scan number .between column
        (spread d.pieces (d.trailing ++ (d.comment ++ rest))) := by
      rw [← List.append_assoc, spread_append, d.text]
    _ = (d.tokens ++ ·) <$> Lexer.scan number .between
        (column + (spread d.pieces d.trailing).length) (d.comment ++ rest) := by
      rw [hfollowed.scan, scan_blanks _ _ d.blank, Nat.add_assoc, hlength]
      rfl

/-- Without a comment the scanner goes on as if the line had not been there. -/
theorem Decomposition.scan_of_comment_eq_nil {line rest : List Char} (d : Decomposition line)
    (hd : d.comment = []) (hrest : ∀ c ∈ rest.head?, isPlain c = false) (number : Int)
    (column : Nat) :
    Lexer.scan number .between column (line ++ rest) =
      (d.tokens ++ ·) <$> Lexer.scan number .between (column + line.length) rest := by
  have hline : spread d.pieces d.trailing = line := by
    have htext := d.text
    rwa [hd, List.append_nil] at htext
  rw [d.scan_append (by rwa [hd]), hd, hline, List.nil_append]

/-- A comment takes all that follows. -/
theorem Decomposition.scan_of_comment_ne_nil {line : List Char} (d : Decomposition line)
    (hd : d.comment ≠ []) (rest : List Char) (number : Int) (column : Nat) :
    Lexer.scan number .between column (line ++ rest) = .ok d.tokens := by
  obtain ⟨c, cs, hcomment⟩ := List.exists_cons_of_ne_nil hd
  obtain rfl : c = ';' := d.mark c (by simp [hcomment])
  have hplain : isPlain ';' = false := by decide
  have hrole : Lexer.role ';' = .commentMark := by decide
  rw [d.scan_append (by simp [hcomment, hplain]), hcomment, List.cons_append,
    Lexer.scan_between _ _ (Lexer.start_of_role _ hrole), scan_comment]
  simp [Functor.map, Except.map]

theorem Decomposition.ofLine_eq {line : List Char} (d : Decomposition line) (number : Int) :
    ofLine number line = .ok d.tokens := by
  by_cases hd : d.comment = []
  · have hscan : Lexer.scan number .between 1 (line ++ []) = _ :=
      d.scan_of_comment_eq_nil hd (by simp) number 1
    simpa [Lexer.scan, Lexer.Mode.finish, Functor.map, Except.map, ofLine] using hscan
  · simpa [ofLine] using d.scan_of_comment_ne_nil hd [] number 1

theorem Opens.ofLine_eq {line before after : List Char} (h : Opens line before after)
    (hunclosed : '"' ∉ after) (number : Int) :
    ofLine number line =
      .error ⟨number, before.length + 1, String.ofList ('"' :: after)⟩ := by
  obtain ⟨rfl, d, hd⟩ := h
  have hmark : isPlain '"' = false := by decide
  have hrole : Lexer.role '"' = .stringMark := by decide
  rw [ofLine, d.scan_of_comment_eq_nil hd (by simpa using hmark),
    Lexer.scan_between _ _ (Lexer.start_of_role _ hrole), scan_unclosed _ _ _ _ hunclosed]
  simp [Functor.map, Except.map, Nat.add_comm]

/-! ## Every line -/

/-- A character that is no blank begins a comment, a string that is never closed, or a token. -/
theorem exists_stands {c : Char} (hc : Text.isBlank c = false) (after : List Char) :
    c = ';' ∨ (c = '"' ∧ '"' ∉ after) ∨
      ∃ t rest, Stands rest t ∧ t.text.toList ++ rest = c :: after := by
  by_cases hcomment : c = ';'
  · exact .inl hcomment
  refine .inr ?_
  by_cases hopen : c = '('
  · exact .inr ⟨.openParen, after, .openParen, by rw [hopen]; rfl⟩
  by_cases hclose : c = ')'
  · exact .inr ⟨.closeParen, after, .closeParen, by rw [hclose]; rfl⟩
  by_cases hquote : c = '\''
  · exact .inr ⟨.quoteMark, after, .quoteMark, by rw [hquote]; rfl⟩
  by_cases hstring : c = '"'
  · by_cases hclosed : '"' ∈ after
    · obtain ⟨contents, rest, rfl, hcontents⟩ := List.eq_append_cons_of_mem hclosed
      refine .inr ⟨.string (String.ofList contents), rest, .string (by simpa using hcontents), ?_⟩
      simp [hstring, text]
    · exact .inl ⟨hstring, hclosed⟩
  · have hplain : isPlain c = true := by simp [isPlain, *]
    refine .inr ⟨classify ((c :: after).takeWhile isPlain), (c :: after).dropWhile isPlain, ?_, ?_⟩
    · refine .atom (by simp [hplain]) (fun d hd => List.mem_takeWhile_imp hd) fun d hd => ?_
      have hhead := List.head?_dropWhile_not isPlain (c :: after)
      rw [Option.mem_def.mp hd] at hhead
      exact hhead
    · rw [text_classify, String.toList_ofList, List.takeWhile_append_dropWhile]

namespace Decomposition

/-- A blank in front of a line that is taken apart. -/
theorem exists_blank {c : Char} (hc : Text.isBlank c = true) {line : List Char}
    (d : Decomposition line) : ∃ d' : Decomposition (c :: line), d'.comment = d.comment := by
  obtain ⟨pieces, trailing, comment, rfl, hfits, hblank, hmark⟩ := d
  cases pieces with
  | nil =>
    exact ⟨⟨[], c :: trailing, comment, rfl, trivial, List.forall_mem_cons.mpr ⟨hc, hblank⟩, hmark⟩,
      rfl⟩
  | cons piece pieces =>
    obtain ⟨gap, t⟩ := piece
    obtain ⟨hgap, hstands, hrest⟩ := hfits
    exact ⟨⟨(c :: gap, t) :: pieces, trailing, comment, rfl,
      ⟨List.forall_mem_cons.mpr ⟨hc, hgap⟩, hstands, hrest⟩, hblank, hmark⟩, rfl⟩

/-- A token in front of a line that is taken apart. -/
theorem exists_cons {t : Token} {line : List Char} (ht : t.Stands line) (d : Decomposition line) :
    ∃ d' : Decomposition (t.text.toList ++ line), d'.comment = d.comment := by
  obtain ⟨pieces, trailing, comment, rfl, hfits, hblank, hmark⟩ := d
  exact ⟨⟨([], t) :: pieces, trailing, comment, rfl, ⟨by simp, ht, hfits⟩, hblank, hmark⟩, rfl⟩

def ofComment (cs : List Char) : Decomposition (';' :: cs) :=
  ⟨[], [], ';' :: cs, rfl, trivial, by simp, by simp⟩

def nil : Decomposition [] := ⟨[], [], [], rfl, trivial, by simp, by simp⟩

end Decomposition

theorem Opens.blank {c : Char} (hc : Text.isBlank c = true) {line before after : List Char}
    (h : Opens line before after) : Opens (c :: line) (c :: before) after where
  text := congrArg (c :: ·) h.text
  outside := by
    obtain ⟨d, hd⟩ := h.outside
    obtain ⟨d', hd'⟩ := d.exists_blank hc
    exact ⟨d', hd'.trans hd⟩

theorem Opens.cons {t : Token} {line before after : List Char} (ht : t.Stands line)
    (h : Opens line before after) :
    Opens (t.text.toList ++ line) (t.text.toList ++ before) after where
  text := by rw [h.text, List.append_assoc]
  outside := by
    obtain ⟨d, hd⟩ := h.outside
    rw [h.text] at ht
    obtain ⟨d', hd'⟩ := d.exists_cons ht.of_append
    exact ⟨d', hd'.trans hd⟩

/-- A line can be taken apart, or it opens a string and never closes it. -/
theorem decomposition_or_unclosed (line : List Char) :
    Nonempty (Decomposition line) ∨ ∃ before after, Opens line before after ∧ '"' ∉ after := by
  -- on the length of the line, since a token takes several characters at once
  induction hlength : line.length using Nat.strongRecOn generalizing line with
  | ind n ih =>
    subst hlength
    cases line with
    | nil => exact .inl ⟨.nil⟩
    | cons c cs =>
      cases hc : Text.isBlank c with
      | true =>
        rcases ih cs.length (Nat.lt_succ_self _) cs rfl with ⟨⟨d⟩⟩ | ⟨before, after, h, hunclosed⟩
        · obtain ⟨d', -⟩ := d.exists_blank hc
          exact .inl ⟨d'⟩
        · exact .inr ⟨c :: before, after, h.blank hc, hunclosed⟩
      | false =>
        rcases exists_stands hc cs with rfl | ⟨rfl, hunclosed⟩ | ⟨t, rest, ht, htext⟩
        · exact .inl ⟨.ofComment cs⟩
        · exact .inr ⟨[], cs, ⟨rfl, .nil, rfl⟩, hunclosed⟩
        · have hlt : rest.length < (c :: cs).length := by
            obtain ⟨d, ds, hd, -⟩ := ht.text_head
            rw [← htext, hd, List.length_append, List.length_cons]
            omega
          rw [← htext]
          rcases ih rest.length hlt rest rfl with ⟨⟨d⟩⟩ | ⟨before, after, h, hunclosed⟩
          · obtain ⟨d', -⟩ := d.exists_cons ht
            exact .inl ⟨d'⟩
          · exact .inr ⟨_, after, h.cons ht, hunclosed⟩

/-! ## One way only -/

/-- A run of characters of a kind ends where the first of another kind stands. -/
theorem run_unique {p : Char → Bool} {a b r s : List Char} (ha : ∀ c ∈ a, p c = true)
    (hb : ∀ c ∈ b, p c = true) (hr : ∀ c ∈ r.head?, p c = false)
    (hs : ∀ c ∈ s.head?, p c = false) (h : a ++ r = b ++ s) : a = b ∧ r = s := by
  have hrun {u v : List Char} (hu : ∀ c ∈ u, p c = true) (hv : ∀ c ∈ v.head?, p c = false) :
      (u ++ v).takeWhile p = u := by
    rw [List.takeWhile_append_of_pos hu]
    cases v with
    | nil => simp
    | cons c v => simp [hv c rfl]
  have heq : a = b := by rw [← hrun ha hr, h, hrun hb hs]
  subst heq
  exact ⟨rfl, List.append_cancel_left h⟩

theorem Fits.unique {rest rest' : List Char} {pieces pieces' : List (List Char × Token)}
    (h : Fits rest pieces) (h' : Fits rest' pieces')
    (htokens : pieces.map Prod.snd = pieces'.map Prod.snd)
    (htext : spread pieces rest = spread pieces' rest') : pieces = pieces' ∧ rest = rest' := by
  induction pieces generalizing pieces' with
  | nil =>
    obtain rfl : pieces' = [] := by simpa using htokens.symm
    exact ⟨rfl, htext⟩
  | cons piece pieces ih =>
    obtain ⟨⟨gap', t'⟩, pieces', rfl⟩ : ∃ piece' rest', pieces' = piece' :: rest' := by
      cases pieces' with
      | nil => cases htokens
      | cons piece' pieces' => exact ⟨_, _, rfl⟩
    obtain ⟨gap, t⟩ := piece
    obtain ⟨hgap, hstands, hfits⟩ := h
    obtain ⟨hgap', hstands', hfits'⟩ := h'
    obtain ⟨heq, hothers⟩ := List.cons.inj htokens
    obtain rfl : t = t' := heq
    obtain ⟨c, cs, hc, hblank⟩ := hstands.text_head
    have hhead (text : List Char) :
        ∀ d ∈ (t.text.toList ++ text).head?, Text.isBlank d = false := by
      simp [hc, hblank]
    obtain ⟨rfl, hrest⟩ := run_unique hgap hgap' (hhead _) (hhead _) htext
    obtain ⟨rfl, rfl⟩ := ih hfits hfits' hothers (List.append_cancel_left hrest)
    exact ⟨rfl, rfl⟩

/-- A line is taken apart in one way only. -/
theorem Decomposition.unique {line : List Char} (d d' : Decomposition line) : d = d' := by
  have htokens : d.tokens = d'.tokens :=
    Except.ok.inj ((d.ofLine_eq 1).symm.trans (d'.ofLine_eq 1))
  have hmark {comment : List Char} (h : ∀ c ∈ comment.head?, c = ';') :
      ∀ c ∈ comment.head?, Text.isBlank c = false := fun c hc => h c hc ▸ by decide
  obtain ⟨hpieces, hrest⟩ := d.fits.unique d'.fits htokens (d.text.trans d'.text.symm)
  obtain ⟨htrailing, hcomment⟩ := run_unique d.blank d'.blank (hmark d.mark) (hmark d'.mark) hrest
  exact Decomposition.ext hpieces htrailing hcomment

/-! ## The scanner -/

theorem ofLine_eq_ok_iff {number : Int} {line : List Char} {ts : List Token} :
    ofLine number line = .ok ts ↔ ∃ d : Decomposition line, d.tokens = ts := by
  constructor
  · intro hok
    rcases decomposition_or_unclosed line with ⟨⟨d⟩⟩ | ⟨before, after, h, hunclosed⟩
    · exact ⟨d, Except.ok.inj ((d.ofLine_eq number).symm.trans hok)⟩
    · rw [h.ofLine_eq hunclosed] at hok
      cases hok
  · rintro ⟨d, rfl⟩
    exact d.ofLine_eq number

theorem Opens.firstUnclosed {line before after : List Char} (h : Opens line before after)
    (hunclosed : '"' ∉ after) : FirstUnclosed line before after where
  opens := h
  unclosed := hunclosed
  first before' after' h' hunclosed' := by
    -- there is no other one, because the scanner reports it
    have heq := (h.ofLine_eq hunclosed 1).symm.trans (h'.ofLine_eq hunclosed' 1)
    have hcolumn : before.length + 1 = before'.length + 1 :=
      congrArg Unterminated.column (Except.error.inj heq)
    omega

theorem ofLines_eq_ok_iff {number : Int} {ls : List (List Char)} {ts : List Token} :
    ofLines number ls = .ok ts ↔
      ∃ tss, List.Forall₂ (fun l us => ∃ d : Decomposition l, d.tokens = us) ls tss ∧
        ts = tss.flatMap (· ++ [.endOfLine]) := by
  induction ls generalizing number ts with
  | nil =>
    constructor
    · rintro ⟨⟩
      exact ⟨[], .nil, rfl⟩
    · rintro ⟨_, ⟨⟩, rfl⟩
      rfl
  | cons l ls ih =>
    simp only [ofLines_cons, ofLine_eq_ok_iff, ih]
    constructor
    · rintro ⟨us, _, hfirst, ⟨tss, hrest, rfl⟩, rfl⟩
      exact ⟨us :: tss, .cons hfirst hrest, by simp⟩
    · rintro ⟨_, ⟨⟩ | @⟨_, us, _, tss, hfirst, hrest⟩, rfl⟩
      exact ⟨us, _, hfirst, ⟨tss, hrest, rfl⟩, by simp⟩

theorem ofLines_cons_error {number : Int} {l : List Char} {ls : List (List Char)}
    {e : Unterminated} :
    ofLines number (l :: ls) = .error e ↔ ofLine number l = .error e ∨
      (Nonempty (Decomposition l) ∧ ofLines (number + 1) ls = .error e) := by
  rw [ofLines]
  cases hfirst : ofLine number l with
  | error e' =>
    have hnone : ¬ Nonempty (Decomposition l) := by
      rintro ⟨d⟩
      rw [d.ofLine_eq] at hfirst
      cases hfirst
    simp [hnone, bind, Except.bind]
  | ok us =>
    obtain ⟨d, -⟩ := ofLine_eq_ok_iff.mp hfirst
    have hsome : Nonempty (Decomposition l) := ⟨d⟩
    cases ofLines (number + 1) ls <;> simp [hsome, bind, Except.bind, pure, Except.pure]

/-- Lines fail with the error of the first of them that fails. -/
theorem ofLines_eq_error_iff {number : Int} {ls : List (List Char)} {e : Unterminated} :
    ofLines number ls = .error e ↔ ∃ before l after, ls = before ++ l :: after ∧
      (∀ m ∈ before, Nonempty (Decomposition m)) ∧
      ofLine (number + before.length) l = .error e := by
  induction ls generalizing number with
  | nil =>
    constructor
    · intro h
      cases h
    · rintro ⟨before, l, after, hls, -⟩
      simp at hls
  | cons l ls ih =>
    rw [ofLines_cons_error, ih]
    constructor
    · rintro (hfirst | ⟨hl, before, m, after, rfl, hbefore, herror⟩)
      · exact ⟨[], l, ls, rfl, by simp, by simpa using hfirst⟩
      · refine ⟨l :: before, m, after, rfl, List.forall_mem_cons.mpr ⟨hl, hbefore⟩, ?_⟩
        rwa [List.length_cons, Int.natCast_succ, Int.add_comm before.length, ← Int.add_assoc]
    · rintro ⟨_ | ⟨k, before⟩, m, after, hls, hbefore, herror⟩
      · cases hls
        exact .inl (by simpa using herror)
      · obtain ⟨rfl, rfl⟩ := List.cons.inj hls
        obtain ⟨hl, hbefore⟩ := List.forall_mem_cons.mp hbefore
        refine .inr ⟨hl, before, m, after, rfl, hbefore, ?_⟩
        rwa [List.length_cons, Int.natCast_succ, Int.add_comm before.length,
          ← Int.add_assoc] at herror

/-- **Tokenization.** The tokens of a line are those of the only way to take it apart: into tokens
with blanks around them, in which no atom could be longer, and a comment.

* A line that cannot be taken apart is refused, with the column of the first double quote that opens
  a string outside comments and is never closed, and with the text from there on.
* No character is unexpected: one that is no blank begins a comment, a token, or a string that is
  never closed.
* The tokens of a text are those of its lines in order, each followed by one end of a line. A text
  in which some line is refused is refused for the first of these, whose number counts from one. -/
theorem ofLine_ofSource_decomposition :
    (∀ (number : Int) (line : List Char),
      (∀ ts, ofLine number line = .ok ts ↔ ∃ d : Decomposition line, d.tokens = ts) ∧
      (∀ d d' : Decomposition line, d = d') ∧
      (IsEmpty (Decomposition line) → ∃ before after, FirstUnclosed line before after ∧
        let e : Unterminated := ⟨number, before.length + 1, String.ofList ('"' :: after)⟩
        ofLine number line = .error e ∧
          e.message = "Unterminated string at " ++ String.ofList (Text.ofInteger number) ++ ":" ++
            String.ofList (Text.ofInteger (before.length + 1)) ++ ": " ++
            String.ofList ('"' :: after))) ∧
    (∀ c after, Text.isBlank c = false → c = ';' ∨ (c = '"' ∧ '"' ∉ after) ∨
      ∃ t rest, Stands rest t ∧ t.text.toList ++ rest = c :: after) ∧
    ∀ source : String,
      (∀ ts, ofSource source = .ok ts ↔
        ∃ tss, List.Forall₂ (fun line us => ∃ d : Decomposition line, d.tokens = us)
          (Text.lines source.toList) tss ∧ ts = tss.flatMap (· ++ [.endOfLine])) ∧
      ∀ e, ofSource source = .error e ↔
        ∃ before line after, Text.lines source.toList = before ++ line :: after ∧
          (∀ l ∈ before, Nonempty (Decomposition l)) ∧
          ofLine (1 + before.length) line = .error e := by
  refine ⟨fun number line => ⟨fun ts => ofLine_eq_ok_iff, fun d d' => d.unique d', fun hnone => ?_⟩,
    fun c after hc => exists_stands hc after,
    fun source => ⟨fun ts => ofLines_eq_ok_iff, fun e => ofLines_eq_error_iff⟩⟩
  rcases decomposition_or_unclosed line with ⟨⟨d⟩⟩ | ⟨before, after, h, hunclosed⟩
  · exact hnone.elim d
  · exact ⟨before, after, h.firstUnclosed hunclosed, h.ofLine_eq hunclosed number, rfl⟩

/-- A string with a comment mark in it, an atom that touches it, and then a string that swallows
what would be a comment. -/
theorem ofLine_ofSource_decomposition_of_open_string :
    let line := "\"a;b\"c\"d ; e".toList
    IsEmpty (Decomposition line) ∧ ∃ before after, FirstUnclosed line before after ∧
      ofLine 4 line = .error ⟨4, before.length + 1, String.ofList ('"' :: after)⟩ ∧
      before.length + 1 = 7 := by
  intro line
  obtain ⟨hiff, -, herror⟩ := ofLine_ofSource_decomposition.1 4 line
  have hscan : ofLine 4 line = .error ⟨4, 7, "\"d ; e"⟩ := by rfl
  have hnone : IsEmpty (Decomposition line) := by
    refine ⟨fun d => ?_⟩
    have hok := (hiff d.tokens).mpr ⟨d, rfl⟩
    rw [hscan] at hok
    cases hok
  obtain ⟨before, after, hfirst, hline, -⟩ := herror hnone
  refine ⟨hnone, before, after, hfirst, hline, ?_⟩
  rw [hscan] at hline
  exact (congrArg Unterminated.column (Except.error.inj hline)).symm

end MiniScheme.Token

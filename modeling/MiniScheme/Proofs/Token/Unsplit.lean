import MiniScheme.Proofs.Reader.Grammar
import MiniScheme.Proofs.Token.Decomposition

/-!
# Texts that are scanned as one line

To a scanner that is given a whole text as one line, the breaks of the text are blanks. They end
every atom, and no string reaches one if the lines can be taken apart one by one, so the tokens are
those of the lines in turn. A comment makes the difference: it takes the lines after it, too.

## Main definitions

* `Token.Decomposition.outside`: the characters of a line that stand in none of its strings.
* `Token.UpToComment`: the tokens of lines up to the first comment.

## Main statements

* `Text.exists_lines_eq_cons`: how a text begins with its first line.
* `Token.UpToComment.scan_eq`: a text as one line has the tokens up to its first comment.
* `Token.ofLine_eq_meaningful_iff`: when these are all tokens of its lines.
* `Token.ofLine_eq_meaningful_of_ofSource`: they are, if there is no comment.
-/

namespace MiniScheme

/-- A text begins with its first line. The other lines are those of the text after some breaks, and
there is no such text if there is no break. -/
theorem Text.exists_lines_eq_cons {cs l : List Char} {ls : List (List Char)}
    (h : lines cs = l :: ls) :
    ∃ gap rest, cs = l ++ (gap ++ rest) ∧ (∀ c ∈ gap, isBreak c = true) ∧
      (gap = [] → rest = []) ∧ lines rest = ls := by
  fun_induction lines cs generalizing l ls with
  | case1 => cases h
  | case2 cs =>
    obtain ⟨rfl, rfl⟩ := List.cons.inj h
    exact ⟨['\r', '\n'], cs, rfl, List.all_eq_true.mp rfl, by simp, rfl⟩
  | case3 c cs _ hbreak =>
    obtain ⟨rfl, rfl⟩ := List.cons.inj h
    exact ⟨[c], cs, rfl, by simpa using hbreak, by simp, rfl⟩
  | case4 c cs _ _ hnone =>
    obtain ⟨rfl, rfl⟩ := List.cons.inj h
    exact ⟨[], [], by simp [lines_eq_nil_iff.mp hnone], by simp, by simp, rfl⟩
  | case5 c cs _ _ first rest hsome ih =>
    obtain ⟨rfl, rfl⟩ := List.cons.inj h
    obtain ⟨gap, rest, rfl, hgap, hend, hrest⟩ := ih hsome
    exact ⟨gap, rest, rfl, hgap, hend, hrest⟩

namespace Token

/-! ## Outside the strings of a line -/

def unquoted : Token → List Char
  | string _ => []
  | t => t.text.toList

/-- The characters of a line that stand in none of its strings. -/
def Decomposition.outside {line : List Char} (d : Decomposition line) : List Char :=
  d.pieces.flatMap (fun piece => piece.1 ++ piece.2.unquoted) ++ (d.trailing ++ d.comment)

theorem unquoted_classify (lexeme : List Char) : (classify lexeme).unquoted = lexeme := by
  have htext : (classify lexeme).text.toList = lexeme := by
    rw [text_classify, String.toList_ofList]
  unfold classify at htext ⊢
  split_ifs at htext ⊢ <;> exact htext

theorem Stands.mark_not_mem {t : Token} {after : List Char} (h : t.Stands after) :
    ';' ∉ t.unquoted := by
  cases h with
  | openParen | closeParen | quoteMark => decide
  | string => exact List.not_mem_nil
  | atom hne hplain hmaximal =>
    intro hmark
    rw [unquoted_classify] at hmark
    exact absurd (hplain _ hmark) (by decide)

theorem Stands.ne_endOfLine {t : Token} {after : List Char} (h : t.Stands after) :
    t ≠ .endOfLine := by
  rintro rfl
  obtain ⟨c, cs, htext, hblank⟩ := h.text_head
  obtain ⟨rfl, -⟩ := List.cons.inj (show '\n' :: [] = c :: cs from htext)
  exact absurd hblank (by decide)

theorem Fits.of_mem {rest : List Char} {pieces : List (List Char × Token)} (h : Fits rest pieces)
    {piece : List Char × Token} (hmem : piece ∈ pieces) :
    (∀ c ∈ piece.1, Text.isBlank c = true) ∧ ∃ after, piece.2.Stands after := by
  induction pieces with
  | nil => cases hmem
  | cons first pieces ih =>
    obtain ⟨hgap, hstands, hfits⟩ := h
    rcases List.mem_cons.mp hmem with rfl | hmem
    · exact ⟨hgap, _, hstands⟩
    · exact ih hfits hmem

namespace Decomposition

variable {line : List Char} (d : Decomposition line)

/-- Outside the strings of a line a semicolon begins a comment. -/
theorem comment_eq_nil_iff : d.comment = [] ↔ ';' ∉ d.outside := by
  have hblank {gap : List Char} (hgap : ∀ c ∈ gap, Text.isBlank c = true) : ';' ∉ gap := fun h =>
    absurd (hgap _ h) (by decide)
  constructor
  · intro hd hmark
    simp only [outside, hd, List.append_nil, List.mem_append, List.mem_flatMap] at hmark
    rcases hmark with ⟨piece, hpiece, hgap | htoken⟩ | htrailing
    · exact hblank (d.fits.of_mem hpiece).1 hgap
    · obtain ⟨after, hstands⟩ := (d.fits.of_mem hpiece).2
      exact hstands.mark_not_mem htoken
    · exact hblank d.blank htrailing
  · intro houtside
    cases hcomment : d.comment with
    | nil => rfl
    | cons c cs =>
      obtain rfl : c = ';' := d.mark c (by simp [hcomment])
      exact absurd (by simp [outside, hcomment]) houtside

/-- No token of a line is the end of a line. -/
theorem meaningful_tokens : Cursor.meaningful d.tokens = d.tokens := by
  refine List.filter_eq_self.mpr fun t ht => ?_
  obtain ⟨piece, hpiece, rfl⟩ := List.mem_map.mp ht
  obtain ⟨after, hstands⟩ := (d.fits.of_mem hpiece).2
  simpa using hstands.ne_endOfLine

end Decomposition

/-! ## Up to the first comment -/

/-- The tokens of lines up to the first comment. -/
inductive UpToComment : List (List Char) → List Token → Prop where
  | nil : UpToComment [] []
  | cons {line : List Char} {ls : List (List Char)} {us : List Token} (d : Decomposition line)
      (hd : d.comment = []) (h : UpToComment ls us) : UpToComment (line :: ls) (d.tokens ++ us)
  | comment {line : List Char} (d : Decomposition line) (hd : d.comment ≠ [])
      (ls : List (List Char)) : UpToComment (line :: ls) d.tokens

/-- Lines that can be taken apart have tokens up to their first comment. -/
theorem exists_upToComment {number : Int} {ls : List (List Char)} {ts : List Token}
    (h : ofLines number ls = .ok ts) : ∃ us, UpToComment ls us := by
  induction ls generalizing number ts with
  | nil => exact ⟨[], .nil⟩
  | cons line ls ih =>
    obtain ⟨_, vs, hfirst, hrest, -⟩ := ofLines_cons.mp h
    obtain ⟨d, -⟩ := ofLine_eq_ok_iff.mp hfirst
    by_cases hd : d.comment = []
    · obtain ⟨us, hus⟩ := ih hrest
      exact ⟨_, .cons d hd hus⟩
    · exact ⟨_, .comment d hd ls⟩

/-- A text as one line has the tokens of its lines up to the first comment. -/
theorem UpToComment.scan_eq {cs : List Char} {us : List Token}
    (h : UpToComment (Text.lines cs) us) (number : Int) (column : Nat) :
    Lexer.scan number .between column cs = .ok us := by
  generalize hls : Text.lines cs = ls at h
  induction h generalizing cs column with
  | nil =>
    obtain rfl := Text.lines_eq_nil_iff.mp hls
    rfl
  | @cons line ls us d hd h ih =>
    obtain ⟨gap, rest, rfl, hgap, hend, hrest⟩ := Text.exists_lines_eq_cons hls
    have hblank : ∀ c ∈ gap, Text.isBlank c = true := fun c hc =>
      Text.isBlank_of_isBreak (hgap c hc)
    -- an atom at the end of the line cannot run into the break
    have hdelimited : ∀ c ∈ (gap ++ rest).head?, isPlain c = false := by
      cases gap with
      | nil => simp [hend rfl]
      | cons b gap => simp [isPlain, hblank b List.mem_cons_self]
    rw [d.scan_of_comment_eq_nil hd hdelimited, scan_blanks _ _ hblank, ih _ hrest]
    rfl
  | @comment line d hd ls =>
    obtain ⟨gap, rest, rfl, -⟩ := Text.exists_lines_eq_cons hls
    exact d.scan_of_comment_ne_nil hd _ number column

/-! ## All tokens -/

/-- Lines whose tokens are those of a line that is taken apart, and those of the lines after it. -/
theorem meaningful_of_ofLines_cons {number : Int} {line : List Char} {ls : List (List Char)}
    {ts : List Token} (d : Decomposition line) (h : ofLines number (line :: ls) = .ok ts) :
    ∃ vs, ofLines (number + 1) ls = .ok vs ∧
      Cursor.meaningful ts = d.tokens ++ Cursor.meaningful vs := by
  obtain ⟨us, vs, hfirst, hrest, rfl⟩ := ofLines_cons.mp h
  obtain rfl : d.tokens = us := Except.ok.inj ((d.ofLine_eq number).symm.trans hfirst)
  exact ⟨vs, hrest, by rw [Cursor.meaningful_append, d.meaningful_tokens]; rfl⟩

theorem meaningful_eq_nil_iff {number : Int} {ls : List (List Char)} {ts : List Token}
    (h : ofLines number ls = .ok ts) :
    Cursor.meaningful ts = [] ↔ ∀ l ∈ ls, ∀ d : Decomposition l, d.tokens = [] := by
  induction ls generalizing number ts with
  | nil =>
    cases h
    simp [Cursor.meaningful]
  | cons line ls ih =>
    obtain ⟨us, -, hfirst, -⟩ := ofLines_cons.mp h
    obtain ⟨d, -⟩ := ofLine_eq_ok_iff.mp hfirst
    obtain ⟨vs, hrest, hts⟩ := meaningful_of_ofLines_cons d h
    have hline : (∀ d' : Decomposition line, d'.tokens = []) ↔ d.tokens = [] :=
      ⟨fun hall => hall d, fun hnil d' => d'.unique d ▸ hnil⟩
    rw [hts, List.append_eq_nil_iff, ih hrest, List.forall_mem_cons, hline]

/-- The tokens of lines up to the first comment are all their tokens exactly if no line with a token
comes after a line with a comment. -/
theorem UpToComment.eq_meaningful_iff {number : Int} {ls : List (List Char)} {us ts : List Token}
    (h : UpToComment ls us) (hts : ofLines number ls = .ok ts) :
    us = Cursor.meaningful ts ↔ ls.Pairwise fun l m =>
      (∀ d : Decomposition l, d.comment = []) ∨ ∀ d : Decomposition m, d.tokens = [] := by
  induction h generalizing number ts with
  | nil =>
    cases hts
    simp [Cursor.meaningful]
  | @cons line ls us d hd h ih =>
    obtain ⟨vs, hrest, heq⟩ := meaningful_of_ofLines_cons d hts
    have hline : ∀ d' : Decomposition line, d'.comment = [] := fun d' => d'.unique d ▸ hd
    rw [heq, List.append_cancel_left_eq, ih hrest, List.pairwise_cons]
    exact ⟨fun hls => ⟨fun m _ => .inl hline, hls⟩, And.right⟩
  | @comment line d hd ls =>
    obtain ⟨vs, hrest, heq⟩ := meaningful_of_ofLines_cons d hts
    rw [heq, List.self_eq_append_right, meaningful_eq_nil_iff hrest, List.pairwise_cons]
    constructor
    · intro hnone
      have hpairwise : ls.Pairwise fun _ m => ∀ d : Decomposition m, d.tokens = [] :=
        List.pairwise_of_forall_mem_list fun _ _ m hm => hnone m hm
      exact ⟨fun m hm => .inr (hnone m hm), hpairwise.imp .inr⟩
    · rintro ⟨hfirst, -⟩ m hm
      exact (hfirst m hm).resolve_left fun hline => hd (hline d)

/-- A text as one line has all tokens of its lines exactly if no line with a token comes after a
line with a comment. -/
theorem ofLine_eq_meaningful_iff {source : String} {ts : List Token}
    (h : ofSource source = .ok ts) (number : Int) :
    ofLine number source.toList = .ok (Cursor.meaningful ts) ↔
      (Text.lines source.toList).Pairwise fun l m =>
        (∀ d : Decomposition l, d.comment = []) ∨ ∀ d : Decomposition m, d.tokens = [] := by
  obtain ⟨us, hus⟩ := exists_upToComment h
  rw [ofLine, hus.scan_eq number 1, Except.ok.injEq, hus.eq_meaningful_iff h]

example : ofSource "a ;\nb" = .ok [.symbol "a", .endOfLine, .symbol "b", .endOfLine] ∧
    ofLine 1 "a ;\nb".toList = .ok [.symbol "a"] := by decide

/-- **Scanning a text as a whole.** If a text can be cut into tokens line by line and there is no
semicolon outside the strings of its lines, then as one line it has the same tokens, but for the
ends of its lines. -/
theorem ofLine_eq_meaningful_of_ofSource {source : String} {ts : List Token}
    (h : ofSource source = .ok ts)
    (hmarks : ∀ line ∈ Text.lines source.toList, ∀ d : Decomposition line, ';' ∉ d.outside)
    (number : Int) : ofLine number source.toList = .ok (Cursor.meaningful ts) := by
  rw [ofLine_eq_meaningful_iff h]
  exact List.pairwise_of_forall_mem_list fun line hline _ _ =>
    .inl fun d => d.comment_eq_nil_iff.mpr (hmarks line hline d)

/-- A semicolon in a string, and two kinds of breaks, each of which ends an atom or a string. -/
theorem ofLine_eq_meaningful_of_ofSource_of_breaks :
    let source := "(f \"a;b\"\r\n'c\u2028#t)"
    let ts : List Token := [.openParen, .symbol "f", .string "a;b", .endOfLine, .quoteMark,
      .symbol "c", .endOfLine, .boolean true, .closeParen, .endOfLine]
    ofSource source = .ok ts ∧
      (∀ line ∈ Text.lines source.toList, ∀ d : Decomposition line, ';' ∉ d.outside) ∧
      ofLine 1 source.toList = .ok [.openParen, .symbol "f", .string "a;b", .quoteMark,
        .symbol "c", .boolean true, .closeParen] := by
  intro source ts
  have hts : ofSource source = .ok ts := by decide +revert
  have hlines : Text.lines source.toList = ["(f \"a;b\"".toList, ['\'', 'c'], ['#', 't', ')']] := by
    decide +revert
  let first : Decomposition "(f \"a;b\"".toList :=
    ⟨[([], .openParen), ([], classify ['f']), ([' '], .string "a;b")], [], [], rfl,
      ⟨by simp, .openParen, by simp,
        .atom (by simp) (List.all_eq_true.mp rfl) (by rintro _ ⟨⟩; rfl),
        List.all_eq_true.mp rfl, .string (by decide), trivial⟩, by simp, by simp⟩
  let second : Decomposition ['\'', 'c'] :=
    ⟨[([], .quoteMark), ([], classify ['c'])], [], [], rfl,
      ⟨by simp, .quoteMark, by simp,
        .atom (by simp) (List.all_eq_true.mp rfl) (by rintro _ ⟨⟩), trivial⟩, by simp, by simp⟩
  let third : Decomposition ['#', 't', ')'] :=
    ⟨[([], classify ['#', 't']), ([], .closeParen)], [], [], rfl,
      ⟨by simp, .atom (by simp) (List.all_eq_true.mp rfl) (by rintro _ ⟨⟩; rfl), by simp,
        .closeParen, trivial⟩, by simp, by simp⟩
  have hmarks : ∀ line ∈ Text.lines source.toList, ∀ d : Decomposition line, ';' ∉ d.outside := by
    rw [hlines]
    simp only [List.forall_mem_cons]
    refine ⟨fun d => ?_, fun d => ?_, fun d => ?_, by simp⟩
    · exact d.unique first ▸ first.comment_eq_nil_iff.mp rfl
    · exact d.unique second ▸ second.comment_eq_nil_iff.mp rfl
    · exact d.unique third ▸ third.comment_eq_nil_iff.mp rfl
  exact ⟨hts, hmarks, ofLine_eq_meaningful_of_ofSource hts hmarks 1⟩

end Token

end MiniScheme

import MiniScheme.Proofs.Token.Lexeme
import MiniScheme.Reader.Source

/-!
# Tokens of joined texts

Two texts with a line feed between them have the lines of both, and perhaps an empty line in
between: a line feed at the beginning is an empty line, after a carriage return it is a part of the
break, after another break it is an empty line, and otherwise it ends the last line. As each line is
scanned by itself, the tokens are those of both texts, up to the end of an empty line.

## Main statements

* `Text.lines_join`: the lines of joined texts.
* `Source.tokens_join`: their tokens.
* `Source.tokens_join_error`: they cannot be cut into tokens if one of the texts cannot.
-/

namespace MiniScheme

/-! ## Lines -/

namespace Text

theorem lines_cons {c : Char} {cs : List Char}
    (h : ∀ rest, c = '\r' → cs = '\n' :: rest → False) :
    lines (c :: cs) =
      if isBreak c then [] :: lines cs
      else match lines cs with
        | [] => [[c]]
        | l :: ls => (c :: l) :: ls :=
  lines.eq_3 c cs h

theorem lines_eq_nil_iff {cs : List Char} : lines cs = [] ↔ cs = [] := by
  refine ⟨fun h => ?_, fun h => h ▸ rfl⟩
  fun_cases lines cs with
  | case1 => rfl
  | _ => simp_all [lines]

/-- Joined texts have the lines of both, and perhaps an empty one in between. -/
theorem lines_join (a b : List Char) :
    ∃ extra, (extra = [] ∨ extra = [[]]) ∧
      lines (a ++ '\n' :: b) = lines a ++ (extra ++ lines b) := by
  fun_induction lines a with
  | case1 => exact ⟨[[]], .inr rfl, rfl⟩
  | case2 cs ih =>
    obtain ⟨extra, hextra, hlines⟩ := ih
    exact ⟨extra, hextra, congrArg ([] :: ·) hlines⟩
  | case3 c cs hreturn hbreak ih =>
    by_cases hlast : c = '\r' ∧ cs = []
    · -- the line feed belongs to the break before it
      obtain ⟨rfl, rfl⟩ := hlast
      exact ⟨[], .inl rfl, rfl⟩
    · obtain ⟨extra, hextra, hlines⟩ := ih
      refine ⟨extra, hextra, ?_⟩
      rw [List.cons_append, lines_cons, if_pos hbreak, hlines, List.cons_append]
      intro rest hc hcs
      cases cs with
      | nil => exact hlast ⟨hc, rfl⟩
      | cons d cs =>
        obtain ⟨rfl, -⟩ := List.cons.inj hcs
        exact hreturn cs hc rfl
  | case4 c cs hreturn hbreak hnone ih =>
    -- the line feed ends the last line
    obtain rfl := lines_eq_nil_iff.mp hnone
    refine ⟨[], .inl rfl, ?_⟩
    have hc : c ≠ '\r' := by
      rintro rfl
      exact hbreak rfl
    rw [List.cons_append, lines_cons fun rest h _ => hc h, if_neg hbreak]
    rfl
  | case5 c cs hreturn hbreak l ls hsome ih =>
    obtain ⟨extra, hextra, hlines⟩ := ih
    refine ⟨extra, hextra, ?_⟩
    have hc : c ≠ '\r' := by
      rintro rfl
      exact hbreak rfl
    rw [List.cons_append, lines_cons fun rest h _ => hc h, if_neg hbreak, hlines, hsome]
    rfl

end Text

/-! ## Tokens -/

namespace Token

/-- Whether a line can be scanned, and its tokens, do not depend on its number. -/
theorem scan_of_line {line line' : Int} {mode : Lexer.Mode} {column : Nat} {cs : List Char}
    {ts : List Token} (h : Lexer.scan line mode column cs = .ok ts) :
    Lexer.scan line' mode column cs = .ok ts := by
  induction cs generalizing mode column ts with
  | nil => cases mode <;> first | exact h | cases h
  | cons c cs ih =>
    simp only [Lexer.scan] at h ⊢
    cases hrest : Lexer.scan line (mode.step column c).2 (column + 1) cs with
    | error e =>
      rw [hrest] at h
      cases h
    | ok us =>
      rw [hrest] at h
      rw [ih hrest]
      exact h

theorem ofLines_cons {line : Int} {l : List Char} {ls : List (List Char)} {ts : List Token} :
    ofLines line (l :: ls) = .ok ts ↔ ∃ us vs, ofLine line l = .ok us ∧
      ofLines (line + 1) ls = .ok vs ∧ ts = us ++ .endOfLine :: vs := by
  simp only [ofLines]
  constructor
  · intro h
    cases hfirst : ofLine line l with
    | error e =>
      rw [hfirst] at h
      cases h
    | ok us =>
      cases hrest : ofLines (line + 1) ls with
      | error e =>
        rw [hfirst, hrest] at h
        cases h
      | ok vs =>
        rw [hfirst, hrest] at h
        exact ⟨us, vs, rfl, rfl, (Except.ok.inj h).symm⟩
  · rintro ⟨us, vs, hfirst, hrest, rfl⟩
    rw [hfirst, hrest]
    rfl

theorem ofLines_of_line {line line' : Int} {ls : List (List Char)} {ts : List Token}
    (h : ofLines line ls = .ok ts) : ofLines line' ls = .ok ts := by
  induction ls generalizing line line' ts with
  | nil => exact h
  | cons l ls ih =>
    obtain ⟨us, vs, hfirst, hrest, rfl⟩ := ofLines_cons.mp h
    exact ofLines_cons.mpr ⟨us, vs, scan_of_line hfirst, ih hrest, rfl⟩

/-- The tokens of lines are those of the first of them and those of the rest. -/
theorem ofLines_append {line : Int} {ls ms : List (List Char)} {ts : List Token} :
    ofLines line (ls ++ ms) = .ok ts ↔
      ∃ us vs, ofLines line ls = .ok us ∧ ofLines line ms = .ok vs ∧ ts = us ++ vs := by
  induction ls generalizing line ts with
  | nil =>
    refine ⟨fun h => ⟨[], ts, rfl, h, rfl⟩, ?_⟩
    rintro ⟨_, vs, ⟨⟩, h, rfl⟩
    exact h
  | cons l ls ih =>
    simp only [List.cons_append, ofLines_cons, ih]
    constructor
    · rintro ⟨first, _, hfirst, ⟨us, vs, hus, hvs, rfl⟩, rfl⟩
      exact ⟨_, vs, ⟨first, us, hfirst, hus, rfl⟩, ofLines_of_line hvs, by simp⟩
    · rintro ⟨_, vs, ⟨first, us, hfirst, hus, rfl⟩, hvs, rfl⟩
      exact ⟨first, _, hfirst, ⟨us, vs, hus, ofLines_of_line hvs, rfl⟩, by simp⟩

end Token

namespace Source

theorem tokens_eq_ok {source : String} {ts : List Token} :
    tokens source = .ok ts ↔ Token.ofLines 1 (Text.lines source.toList) = .ok ts := by
  unfold tokens Token.ofSource
  cases Token.ofLines 1 (Text.lines source.toList) with
  | error e =>
    constructor
    · intro h
      cases h
    · intro h
      cases h
  | ok us =>
    constructor
    · rintro ⟨⟩
      rfl
    · rintro ⟨⟩
      rfl

/-- The tokens of joined texts are those of both, with perhaps the end of an empty line between. -/
theorem tokens_join (a b : String) :
    ∃ extra, (extra = [] ∨ extra = [Token.endOfLine]) ∧ ∀ ts,
      tokens (a ++ "\n" ++ b) = .ok ts ↔
        ∃ us vs, tokens a = .ok us ∧ tokens b = .ok vs ∧ ts = us ++ (extra ++ vs) := by
  obtain ⟨between, hbetween, hlines⟩ := Text.lines_join a.toList b.toList
  have hjoined : (a ++ "\n" ++ b).toList = a.toList ++ '\n' :: b.toList := by simp
  obtain ⟨extra, hextra, hscan⟩ : ∃ extra, (extra = [] ∨ extra = [Token.endOfLine]) ∧
      Token.ofLines 1 between = .ok extra := by
    rcases hbetween with rfl | rfl
    · exact ⟨[], .inl rfl, rfl⟩
    · exact ⟨[.endOfLine], .inr rfl, rfl⟩
  refine ⟨extra, hextra, fun ts => ?_⟩
  simp only [tokens_eq_ok, hjoined, hlines, Token.ofLines_append, hscan]
  constructor
  · rintro ⟨us, _, hus, ⟨_, vs, ⟨⟩, hvs, rfl⟩, rfl⟩
    exact ⟨us, vs, hus, hvs, rfl⟩
  · rintro ⟨us, vs, hus, hvs, rfl⟩
    exact ⟨us, _, hus, ⟨extra, vs, rfl, hvs, rfl⟩, rfl⟩

/-- Joined texts cannot be cut into tokens if one of them cannot. -/
theorem tokens_join_error {a b : String} {e : SourceError}
    (h : tokens a = .error e ∨ tokens b = .error e) :
    ∃ e', tokens (a ++ "\n" ++ b) = .error (.unterminated e') := by
  cases hjoined : Token.ofSource (a ++ "\n" ++ b) with
  | error e' => exact ⟨e', by rw [tokens, hjoined]; rfl⟩
  | ok ts =>
    have hok : tokens (a ++ "\n" ++ b) = .ok ts := by
      rw [tokens, hjoined]
      rfl
    obtain ⟨extra, -, htokens⟩ := tokens_join a b
    obtain ⟨us, vs, hus, hvs, -⟩ := (htokens ts).mp hok
    rcases h with h | h
    · rw [h] at hus
      cases hus
    · rw [h] at hvs
      cases hvs

end Source

end MiniScheme

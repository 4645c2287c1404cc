import MiniScheme.Proofs.Value.Written

/-!
# Writing and reading back

A value that was read is written as a text, and this text is read again. The result is the same
value unless a dot has slipped into the middle of a chain: the text of `(a . (. b))` is `(a . b)`,
where the dot is no symbol any more.

## Main definitions

* `Value.dotFree`: no pair has the dot as the next item of its chain.

## Main statements

* `Reader.Derives.of_dotFree`: the tokens of a dot-free value derive it.
* `Reader.Derives.fits`: no derivation of a value has fewer tokens than its text has, and one of a
  value that is not dot-free has more.
* `Source.readAll_text_iff_dotFree`: what is read back is the same exactly for dot-free values.
-/

namespace MiniScheme.Value

open Reader

/-- A pair whose left half is the dot. -/
def beginsWithDot : Value → Bool
  | pair left _ => left = symbol "."
  | _ => false

/-- Nowhere in a value is there a pair whose right half is a pair that begins with the dot. -/
def dotFree : Value → Bool
  | pair left right => !right.beginsWithDot && left.dotFree && right.dotFree
  | quoted v => v.dotFree
  | _ => true

theorem dotFree_pair (left right : Value) :
    (pair left right).dotFree = true ↔
      right.beginsWithDot = false ∧ left.dotFree = true ∧ right.dotFree = true := by
  simp [dotFree, and_assoc]

/-- Only the symbol is written as a single dot. -/
theorem eq_symbol_of_tokens_eq_dot {v : Value} (h : v.tokens .alone = [dot]) : v = symbol "." := by
  cases v with
  | symbol name => simpa [tokens, Place.enclose, dot] using h
  | pair left right => simp [tokens, Place.brackets, dot] at h
  | _ => simp [tokens, Place.enclose, Place.brackets, dot] at h

theorem tokens_chain_right (vs : List Value) (w : Value) :
    (chain vs w).tokens .right = vs.flatMap (·.tokens .alone) ++ w.tokens .right := by
  induction vs with
  | nil => rfl
  | cons v vs ih => simp [tokens, Place.brackets, ih]

end MiniScheme.Value

namespace MiniScheme.Reader

open Value

/-! ## Dot-free values are read back -/

/-- What the tokens of a value at a place derive: the value itself, or the chain that ends in it. -/
def DerivesAt (room : Nat) (v : Value) : Place → Prop
  | .alone => Derives room (v.tokens .alone) (.expr v)
  | .right => ∀ (ts us : List Token) (w : Value) (ws : List Value),
      Derives room ts (.expr w) → Derives room us (.items ws) →
      Derives (room + 2) (.openParen :: (ts ++ us ++ v.tokens .right)) (.expr (.chain (w :: ws) v))

/-- A value that is no part of the chain it ends stands after the dot. -/
theorem DerivesAt.enclose {room : Nat} {v : Value} {body : List Token}
    (htokens : ∀ place : Place, v.tokens place = place.enclose body)
    (h : Derives room body (.expr v)) (place : Place) : DerivesAt room v place := by
  cases place with
  | alone =>
    rw [DerivesAt, htokens]
    exact h
  | right =>
    intro ts us w ws hfirst hrest
    rw [htokens]
    exact .dotted hfirst hrest h

theorem Derives.of_dotFree {v : Value} {place : Place} {room : Nat} (h : v.Legible place room)
    (hfree : v.dotFree = true) (hbegin : place = .right → v.beginsWithDot = false) :
    DerivesAt room v place := by
  induction v generalizing place room with
  | nil =>
    cases place with
    | alone =>
      obtain ⟨r, rfl⟩ := Nat.exists_eq_add_of_le' (show 2 ≤ room from h)
      exact .empty r
    | right => exact fun _ _ _ _ hfirst hrest => .list hfirst hrest
  | pair left right ihl ihr =>
    obtain ⟨hroom, hleft, hright⟩ := h
    obtain ⟨hnext, hfreel, hfreer⟩ := (dotFree_pair left right).mp hfree
    have hl : Derives _ (left.tokens .alone) (.expr left) := ihl hleft hfreel (by simp)
    have hr := ihr hright hfreer (fun _ => hnext)
    cases place with
    | alone =>
      obtain ⟨r, rfl⟩ := Nat.exists_eq_add_of_le' (show 2 ≤ room from hroom)
      simpa [tokens, Place.brackets, Place.weight, DerivesAt] using hr _ _ _ _ hl (.none _)
    | right =>
      intro ts us w ws hfirst hrest
      have hdot : left.tokens .alone ≠ [dot] := by
        intro heq
        have := hbegin rfl
        simp [beginsWithDot, eq_symbol_of_tokens_eq_dot heq] at this
      have hall := hr _ _ _ _ hfirst (.item hrest hl hdot)
      simpa [tokens, Place.brackets, Place.weight, chain] using hall
  | integer n =>
    refine .enclose (fun _ => rfl) (.integer room ?_) place
    rw [String.toList_ofList]
    exact Text.toInteger?_ofInteger h
  | boolean b => exact .enclose (fun _ => rfl) (.boolean room b) place
  | string s => exact .enclose (fun _ => rfl) (.string room s) place
  | symbol name => exact .enclose (fun _ => rfl) (.symbol room name) place
  | quoted v ih =>
    obtain ⟨hroom, hv⟩ := h
    obtain ⟨r, rfl⟩ := Nat.exists_eq_add_of_le' hroom
    have hquoted : Derives r (v.tokens .alone) (.expr v) := ih hv hfree (by simp)
    exact .enclose (fun _ => rfl) (.quote hquoted) place
  | form | native | closure | elseMarker => exact h.elim

/-! ## Other values are not -/

theorem eq_dot_of_derives_symbol {room : Nat} {ts : List Token} {v : Value}
    (h : Derives room ts (.expr v)) (hv : v = .symbol ".") : ts = [dot] := by
  cases h with
  | symbol room name => cases hv; rfl
  | _ => cases hv

/-- A phrase has at least as many tokens as the texts of its values, and more if one of these is
not dot-free. No item of a list is the dot. -/
def Phrase.Fits (length : Nat) : Phrase → Prop
  | .expr v => (v.tokens .alone).length ≤ length ∧
      (v.dotFree = false → (v.tokens .alone).length < length)
  | .items vs => (vs.flatMap (·.tokens .alone)).length ≤ length ∧
      ((∃ v ∈ vs, v.dotFree = false) → (vs.flatMap (·.tokens .alone)).length < length) ∧
      ∀ v ∈ vs, v ≠ .symbol "."

theorem dotFree_chain {v w : Value} {vs : List Value} (hv : v.dotFree = true)
    (hvs : ∀ u ∈ vs, u.dotFree = true ∧ u ≠ .symbol ".") (hw : w.dotFree = true)
    (hbegin : w.beginsWithDot = false) : (chain (v :: vs) w).dotFree = true := by
  induction vs generalizing v with
  | nil => exact (dotFree_pair v w).mpr ⟨hbegin, hv, hw⟩
  | cons u us ih =>
    obtain ⟨hu, hdot⟩ := hvs u List.mem_cons_self
    have hrest := ih hu fun x hx => hvs x (List.mem_cons_of_mem _ hx)
    refine (dotFree_pair v _).mpr ⟨?_, hv, hrest⟩
    simpa [beginsWithDot] using hdot

/-- What keeps a chain from being dot-free: one of its items, its tail, or a dot at the beginning of
the tail. -/
theorem exists_dot_of_chain {v w : Value} {vs : List Value} (hdot : ∀ u ∈ vs, u ≠ .symbol ".")
    (h : (chain (v :: vs) w).dotFree = false) :
    v.dotFree = false ∨ (∃ u ∈ vs, u.dotFree = false) ∨ w.dotFree = false ∨
      w.beginsWithDot = true := by
  refine Classical.byContradiction fun hnone => ?_
  simp only [not_or, not_exists, not_and, Bool.not_eq_false, Bool.not_eq_true] at hnone
  obtain ⟨hv, hvs, hw, hbegin⟩ := hnone
  have hchain := dotFree_chain hv (fun u hu => ⟨hvs u hu, hdot u hu⟩) hw hbegin
  rw [h] at hchain
  cases hchain

theorem length_tokens_right_le (w : Value) :
    (w.tokens .right).length ≤ (w.tokens .alone).length + 2 := by
  cases w with
  | pair left right =>
    simp only [tokens, Place.brackets, List.length_append, List.length_cons, List.length_nil]
    omega
  | _ => simp [tokens, Place.enclose, Place.brackets]

theorem length_tokens_right_lt {w : Value} (h : w.beginsWithDot = true) :
    (w.tokens .right).length < (w.tokens .alone).length := by
  cases w with
  | pair left right => simp [tokens, Place.brackets]
  | _ => simp [beginsWithDot] at h

theorem length_tokens_bracket (v w : Value) (vs : List Value) :
    ((chain (v :: vs) w).tokens .alone).length =
      (v.tokens .alone).length + (vs.flatMap (·.tokens .alone)).length +
        (w.tokens .right).length + 1 := by
  simp only [chain_cons, tokens, Place.brackets, tokens_chain_right, List.length_append,
    List.length_cons, List.length_nil]
  omega

/-- The shortest tokens of a value are those of its text, and they derive it only if it is
dot-free: a dot in the middle of a chain takes a chain of its own, with its brackets, as the tail
of the chain before it. -/
theorem Derives.fits {room : Nat} {ts : List Token} {phrase : Phrase}
    (h : Derives room ts phrase) : phrase.Fits ts.length := by
  -- on the derivation; a dot in the middle of a chain has cost more tokens than its text has, so
  -- the bound is strict there
  induction h with
  | quote h ih =>
    obtain ⟨hle, hlt⟩ := ih
    refine ⟨by simpa [tokens, Place.enclose] using hle, fun hfree => ?_⟩
    simpa [tokens, Place.enclose] using hlt hfree
  | empty room => simp [Phrase.Fits, tokens, Place.brackets, dotFree]
  | @list room ts us v vs first rest ihfirst ihrest =>
    obtain ⟨hv, hv'⟩ := ihfirst
    obtain ⟨hvs, hvs', hdot⟩ := ihrest
    have hlength := length_tokens_bracket v .nil vs
    have hnil : (Value.nil.tokens .right).length = 1 := rfl
    simp only [Phrase.Fits, List.length_cons, List.length_append, List.length_nil]
    refine ⟨by omega, fun hfree => ?_⟩
    rcases exists_dot_of_chain hdot hfree with hfirst | hrest | hlast | hbegin
    · have := hv' hfirst
      omega
    · have := hvs' hrest
      omega
    · cases hlast
    · cases hbegin
  | @dotted room ts us ws v w vs first rest last ihfirst ihrest ihlast =>
    obtain ⟨hv, hv'⟩ := ihfirst
    obtain ⟨hvs, hvs', hdot⟩ := ihrest
    obtain ⟨hw, hw'⟩ := ihlast
    have hlength := length_tokens_bracket v w vs
    have hright := length_tokens_right_le w
    simp only [Phrase.Fits, List.length_cons, List.length_append, List.length_nil]
    refine ⟨by omega, fun hfree => ?_⟩
    rcases exists_dot_of_chain hdot hfree with hfirst | hrest | hlast | hbegin
    · have := hv' hfirst
      omega
    · have := hvs' hrest
      omega
    · have := hw' hlast
      omega
    · have := length_tokens_right_lt hbegin
      omega
  | boolean | integer | string | symbol => simp [Phrase.Fits, tokens, Place.enclose, dotFree]
  | none room => simp [Phrase.Fits]
  | @item room us ts vs v before h hdot ihbefore ih =>
    obtain ⟨hvs, hvs', hne⟩ := ihbefore
    obtain ⟨hv, hv'⟩ := ih
    simp only [Phrase.Fits, List.flatMap_append, List.flatMap_cons, List.flatMap_nil,
      List.append_nil, List.length_append, List.mem_append, List.mem_singleton]
    refine ⟨by omega, ?_, ?_⟩
    · rintro ⟨u, hu | rfl, hfree⟩
      · have := hvs' ⟨u, hu, hfree⟩
        omega
      · have := hv' hfree
        omega
    · rintro u (hu | rfl)
      · exact hne u hu
      · exact fun heq => hdot (eq_dot_of_derives_symbol h heq)

/-- The tokens of the text of a value derive it only if it is dot-free. -/
theorem dotFree_of_derives_tokens {room : Nat} {v : Value}
    (h : Derives room (v.tokens .alone) (.expr v)) : v.dotFree = true := by
  cases hfree : v.dotFree with
  | true => rfl
  | false => exact absurd (h.fits.2 hfree) (Nat.lt_irrefl _)

end MiniScheme.Reader

namespace MiniScheme.Source

open Reader Value

theorem lexical_of_mem_tokens {source : String} {ts : List Token} (h : tokens source = .ok ts)
    {t : Token} (ht : t ∈ ts) : t.Lexical := by
  unfold tokens at h
  cases hts : Token.ofSource source with
  | error e =>
    rw [hts] at h
    cases h
  | ok us =>
    rw [hts] at h
    cases h
    exact Token.lexical_of_mem_ofSource hts t ht

/-- Everything that is read from a text is legible. -/
theorem legible_of_mem_readAll {limit : Nat} {source : String} {forms : List Value}
    (h : readAll limit source = .ok forms) {v : Value} (hv : v ∈ forms) :
    v.Legible .alone (limit - 1) := by
  obtain ⟨ts, htokens, herror, rfl⟩ := readAll_eq_ok_iff.mp h
  obtain ⟨us, hsub, hderives⟩ :=
    (Cursor.forms_of_readAll_ok herror).exists_derives hv
  refine hderives.legible fun t ht => lexical_of_mem_tokens htokens ?_
  exact (List.mem_filter.mp (hsub t ht)).1

theorem derives_of_forms_singleton {room : Nat} {ts : List Token} {v : Value}
    (h : Forms room ts [v]) : Derives room ts (.expr v) := by
  cases h with
  | cons first rest =>
    cases rest
    simpa using first

/-- A value is written on one line. -/
theorem endOfLine_not_mem_tokens (v : Value) (place : Place) :
    .endOfLine ∉ v.tokens place := by
  induction v generalizing place with
  | pair left right ihl ihr => cases place <;> simp [Value.tokens, Place.brackets, ihl, ihr]
  | quoted v ih => cases place <;> simp [Value.tokens, Place.enclose, dot, ih]
  | _ => cases place <;> simp [Value.tokens, Place.brackets, Place.enclose, dot]

theorem meaningful_written (v : Value) :
    Cursor.meaningful (v.tokens .alone ++ [.endOfLine]) = v.tokens .alone := by
  have hline : ∀ t ∈ v.tokens .alone, t ≠ .endOfLine := by
    rintro t ht rfl
    exact endOfLine_not_mem_tokens v .alone ht
  simpa [Cursor.meaningful] using hline

/-- The text of a legible value is read as that value alone exactly if the tokens of the text
derive it. -/
theorem readAll_write_eq_ok_iff {limit : Nat} {v : Value} (h : v.Legible .alone (limit - 1)) :
    readAll limit (String.ofList v.write) = .ok [v] ↔
      Derives (limit - 1) (v.tokens .alone) (.expr v) := by
  constructor
  · intro hread
    obtain ⟨ts, htokens, herror, hforms⟩ := readAll_eq_ok_iff.mp hread
    obtain rfl : v.tokens .alone ++ [.endOfLine] = ts := by
      simpa [tokens_write h] using htokens
    have hderives := Cursor.forms_of_readAll_ok herror
    rw [hforms, meaningful_written] at hderives
    exact derives_of_forms_singleton hderives
  · intro hderives
    refine readAll_eq_ok_iff.mpr ⟨_, tokens_write h, ?_⟩
    rw [Cursor.readAll_of_derives hderives]
    exact ⟨rfl, rfl⟩

/-- **Round trip.** Whatever is read from a text can be written, and what is written is read back
as the same value, and nothing besides, exactly if the value is dot-free. -/
theorem readAll_text_iff_dotFree {limit : Nat} {source : String} {forms : List Value}
    (hread : readAll limit source = .ok forms) {v : Value} (hv : v ∈ forms) :
    ∃ text, v.text limit = .ok text ∧ (readAll limit text = .ok [v] ↔ v.dotFree = true) := by
  have hlegible := legible_of_mem_readAll hread hv
  refine ⟨_, text_of_legible hlegible (Nat.sub_le _ _), ?_⟩
  rw [readAll_write_eq_ok_iff hlegible]
  exact ⟨dotFree_of_derives_tokens, fun hfree => Derives.of_dotFree hlegible hfree (by simp)⟩

/-- What `(a . (. b))` stands for is written as a text that is read otherwise. -/
theorem readAll_text_ne_of_dot_in_chain :
    ∃ text, (chain [symbol "a", symbol ".", symbol "b"] nil).text 1000 = .ok text ∧
      readAll 1000 text ≠ .ok [chain [symbol "a", symbol ".", symbol "b"] nil] := by
  have hread : readAll 1000 "(a . (. b))" =
      .ok [chain [symbol "a", symbol ".", symbol "b"] nil] := rfl
  obtain ⟨text, htext, hiff⟩ := readAll_text_iff_dotFree hread List.mem_cons_self
  refine ⟨text, htext, fun hback => ?_⟩
  have hfree := hiff.mp hback
  simp [dotFree, beginsWithDot] at hfree

end MiniScheme.Source

import MiniScheme.Proofs.Reader.Grammar
import MiniScheme.Proofs.Token.Lexeme
import MiniScheme.Reader.Source
import MiniScheme.Value.Printer

/-!
# The tokens of written values

Whatever is read can be written, and the text of a value is cut into the tokens that one expects:
those of its items between brackets, and a dot in front of the value that a dotted chain ends in.

## Main definitions

* `Value.Legible`: what is true of every value that was read, with the nesting it may use.
* `Value.tokens`: the tokens that a value is written with.

## Main statements

* `Reader.Derives.legible`: what is derived from lexical tokens is legible.
* `Value.text_of_legible`: a legible value can be written.
* `Value.tokens_write`: the text of a legible value is cut into its tokens.
-/

namespace MiniScheme.Value

open Token Reader

namespace Place

def weight : Place → Nat
  | alone => 2
  | right => 0

def brackets : Place → List Token
  | alone => [.openParen]
  | right => []

/-- The tokens of a value that is not a part of the chain it ends. -/
def enclose : Place → List Token → List Token
  | alone, ts => ts
  | right, ts => dot :: (ts ++ [.closeParen])

end Place

/-- A value that can be written and read again with so much room for nesting: its leaves are ones
that have a lexeme. -/
def Legible : Value → Place → (room : Nat) → Prop
  | nil, place, room => place.weight ≤ room
  | pair left right, place, room => place.weight ≤ room ∧
      left.Legible .alone (room - place.weight) ∧ right.Legible .right (room - place.weight)
  | integer n, _, _ => Text.isWritable n = true
  | boolean _, _, _ => True
  | string s, _, _ => (Token.string s).Lexical
  | symbol name, _, _ => (Token.symbol name).Lexical
  | quoted v, _, room => 1 ≤ room ∧ v.Legible .alone (room - 1)
  | form _ _, _, _ | native _ _, _, _ | closure _ _ _, _, _ | elseMarker, _, _ => False

/-- The tokens of a value at a place. Those of a right half go up to the closing bracket. -/
def tokens : Value → Place → List Token
  | nil, place => place.brackets ++ [.closeParen]
  | pair left right, place => place.brackets ++ (left.tokens .alone ++ right.tokens .right)
  | integer n, place => place.enclose [.integer (String.ofList (Text.ofInteger n))]
  | boolean b, place => place.enclose [.boolean b]
  | string s, place => place.enclose [.string s]
  | symbol name, place => place.enclose [.symbol name]
  | quoted v, place => place.enclose (.quoteMark :: v.tokens .alone)
  | form _ _, _ | native _ _, _ | closure _ _ _, _ | elseMarker, _ => []

/-! ## Legible values -/

theorem Legible.mono {v : Value} {place : Place} {room room' : Nat} (h : v.Legible place room)
    (hle : room ≤ room') : v.Legible place room' := by
  induction v generalizing place room room' with
  | nil => exact Nat.le_trans h hle
  | pair left right ihl ihr =>
    obtain ⟨hroom, hleft, hright⟩ := h
    exact ⟨by omega, ihl hleft (by omega), ihr hright (by omega)⟩
  | quoted v ih => exact ⟨by have := h.1; omega, ih h.2 (by omega)⟩
  | _ => exact h

/-- As the right half of a pair, a chain needs no brackets of its own. -/
theorem Legible.right {v : Value} {room : Nat} (h : v.Legible .alone room) :
    v.Legible .right room := by
  cases v with
  | nil => exact Nat.zero_le _
  | pair left right =>
    obtain ⟨-, hleft, hright⟩ := h
    exact ⟨Nat.zero_le _, hleft.mono (Nat.sub_le _ _), hright.mono (Nat.sub_le _ _)⟩
  | _ => exact h

theorem Legible.chain {vs : List Value} {w : Value} {room : Nat}
    (hvs : ∀ v ∈ vs, v.Legible .alone room) (hw : w.Legible .right room) :
    (chain vs w).Legible .right room := by
  induction vs with
  | nil => exact hw
  | cons v vs ih =>
    exact ⟨Nat.zero_le _, hvs v List.mem_cons_self,
      ih fun u hu => hvs u (List.mem_cons_of_mem _ hu)⟩

theorem Legible.of_mem_chain {vs : List Value} {w : Value} {room : Nat}
    (h : (Value.chain vs w).Legible .right room) : ∀ v ∈ vs, v.Legible .alone room := by
  induction vs with
  | nil => simp
  | cons v vs ih =>
    obtain ⟨-, hv, hvs⟩ := h
    exact List.forall_mem_cons.mpr ⟨hv, ih hvs⟩

/-- A chain at a place of its own, from its items and its end. -/
theorem Legible.bracket {v w : Value} {vs : List Value} {room : Nat}
    (hv : v.Legible .alone room) (hvs : ∀ u ∈ vs, u.Legible .alone room)
    (hw : w.Legible .right room) : (Value.chain (v :: vs) w).Legible .alone (room + 2) :=
  ⟨Nat.le_add_left _ _, hv, Legible.chain hvs hw⟩

end MiniScheme.Value

namespace MiniScheme.Reader

open Value

def Phrase.Legible (room : Nat) : Phrase → Prop
  | .expr v => v.Legible .alone room
  | .items vs => ∀ v ∈ vs, v.Legible .alone room

/-- What is read from the tokens of a text is legible. -/
theorem Derives.legible {room : Nat} {ts : List Token} {phrase : Phrase}
    (h : Derives room ts phrase) (hts : ∀ t ∈ ts, t.Lexical) : phrase.Legible room := by
  induction h with
  | quote h ih => exact ⟨Nat.le_add_left _ _, ih fun t ht => hts t (List.mem_cons_of_mem _ ht)⟩
  | empty room => exact Nat.le_add_left _ _
  | list first rest ihfirst ihrest =>
    simp only [List.mem_cons, List.mem_append] at hts
    exact .bracket (ihfirst fun t ht => hts t (by simp [ht]))
      (ihrest fun t ht => hts t (by simp [ht])) (Nat.zero_le _)
  | dotted first rest last ihfirst ihrest ihlast =>
    simp only [List.mem_cons, List.mem_append] at hts
    exact .bracket (ihfirst fun t ht => hts t (by simp [ht]))
      (ihrest fun t ht => hts t (by simp [ht])) (ihlast fun t ht => hts t (by simp [ht])).right
  | boolean room b => trivial
  | integer room hn => exact Text.isWritable_of_toInteger? hn
  | string room s => exact hts _ List.mem_cons_self
  | symbol room name => exact hts _ List.mem_cons_self
  | none room => simp [Phrase.Legible]
  | item before h hdot ihbefore ih =>
    simp only [List.mem_append] at hts
    intro u hu
    rcases List.mem_append.mp hu with hu | hu
    · exact ihbefore (fun t ht => hts t (.inl ht)) u hu
    · obtain rfl := List.mem_singleton.mp hu
      exact ih fun t ht => hts t (.inr ht)

end MiniScheme.Reader

namespace MiniScheme.Value

open Token Reader

/-! ## Writing -/

/-- Nothing keeps a legible value from being written: the writer nests less than the reader. -/
theorem obstacle?_of_legible {v : Value} {place : Place} {room depth : Nat}
    (h : v.Legible place room) (hdepth : room ≤ depth)
    (hplace : place = .right → room < depth) : v.obstacle? depth = none := by
  induction v generalizing place room depth with
  | pair left right ihl ihr =>
    obtain ⟨hroom, hleft, hright⟩ := h
    obtain ⟨depth, rfl⟩ : ∃ d, depth = d + 1 := by
      refine Nat.exists_eq_add_one_of_ne_zero ?_
      cases place with
      | alone => simp only [Place.weight] at hroom; omega
      | right => have := hplace rfl; omega
    have hless : room - place.weight ≤ depth := by
      cases place with
      | alone => simp only [Place.weight] at hroom ⊢; omega
      | right => have := hplace rfl; simp only [Place.weight]; omega
    have hnone := ihl hleft hless (by simp)
    simp only [obstacle?, hnone]
    exact ihr hright (by omega) (by omega)
  | quoted v ih =>
    obtain ⟨hroom, hv⟩ := h
    obtain ⟨depth, rfl⟩ := Nat.exists_eq_add_one_of_ne_zero (n := depth) (by omega)
    simp only [obstacle?]
    exact ih hv (by omega) (by simp)
  | integer n =>
    have hn : Text.isWritable n = true := h
    simp [obstacle?, hn]
  | closure => exact h.elim
  | _ => rfl

theorem text_of_legible {v : Value} {room limit : Nat} (h : v.Legible .alone room)
    (hroom : room ≤ limit) : v.text limit = .ok (String.ofList v.write) := by
  rw [text, obstacle?_of_legible h hroom (by simp)]

/-! ## Cutting what is written -/

open Lexer

theorem Place.scans_enclose {text : List Char} {ts : List Token} (h : Scans text ts)
    (place : Place) : Scans (place.before ++ (text ++ (place.after ++ []))) (place.enclose ts) := by
  cases place with
  | alone => simpa [Place.before, Place.after, Place.enclose] using h
  | right =>
    have hblank : role ' ' ≠ .atomic := by decide
    have hclose : role ')' ≠ .atomic := by decide
    have hdot : Scans ['.'] [dot] := .lexeme ⟨by simp, List.forall_mem_singleton.mpr (by decide)⟩
    have hbody := h.append (.closeParen .nil) (delimited_cons hclose)
    have hall := hdot.append hbody.space fun rest => delimited_cons hblank _
    simpa [Place.before, Place.after, Place.enclose] using hall.space

/-- The text of a right half starts with a delimiter. -/
theorem delimited_render_right (v : Value) (rest : List Char) :
    Delimited (v.render .right [] ++ rest) := by
  have hblank : role ' ' ≠ .atomic := by decide
  have hclose : role ')' ≠ .atomic := by decide
  cases v with
  | nil => exact delimited_cons hclose _
  | _ => exact delimited_cons hblank _

/-- The text of a legible value is cut into its tokens. -/
theorem scans_render {v : Value} {place : Place} {room : Nat} (h : v.Legible place room) :
    Scans (v.render place []) (v.tokens place) := by
  induction v generalizing place room with
  | nil =>
    cases place with
    | alone => exact .openParen (.closeParen .nil)
    | right => exact .closeParen .nil
  | pair left right ihl ihr =>
    obtain ⟨-, hleft, hright⟩ := h
    -- the right half starts with a delimiter, so no token runs from one half into the other
    have hbody : Scans (left.write ++ right.writeRest)
        (left.tokens .alone ++ right.tokens .right) :=
      (ihl hleft).append (ihr hright) (delimited_render_right right)
    cases place with
    | alone =>
      change Scans (pair left right).write _
      rw [write_pair]
      exact hbody.openParen
    | right =>
      change Scans (pair left right).writeRest _
      rw [writeRest_pair]
      exact hbody.space
  | integer n =>
    have hclassify : classify (Text.ofInteger n) = .integer (String.ofList (Text.ofInteger n)) := by
      simp [classify, Text.isInteger_ofInteger]
    have hscan := Scans.lexeme (isAtom_ofInteger n)
    rw [hclassify] at hscan
    exact place.scans_enclose hscan
  | boolean b =>
    have hscan : Scans ['#', if b then 't' else 'f'] [.boolean b] := by
      have hmark : role '#' = .atomic := by decide
      have hletter : role (if b then 't' else 'f') = .atomic := by cases b <;> decide
      have hatom : Lexer.IsAtom ['#', if b then 't' else 'f'] := ⟨by simp, by simp [hmark, hletter]⟩
      cases b <;> exact .lexeme hatom
    exact place.scans_enclose hscan
  | string s =>
    have hscan := Scans.string h
    rw [String.ofList_toList] at hscan
    simpa [render, tokens] using place.scans_enclose hscan
  | symbol name =>
    obtain ⟨hatom, hclassify⟩ : IsAtom name.toList ∧ classify name.toList = .symbol name := h
    have hscan := Scans.lexeme hatom
    rw [hclassify] at hscan
    exact place.scans_enclose hscan
  | quoted v ih =>
    have hscan := place.scans_enclose (ih h.2).quoteMark
    rw [List.cons_append, ← render_append, List.nil_append] at hscan
    exact hscan
  | form | native | closure | elseMarker => exact h.elim

theorem write_ne_nil {v : Value} {room : Nat} (h : v.Legible .alone room) : v.write ≠ [] := by
  cases v with
  | integer n =>
    have hne := (isAtom_ofInteger n).ne_nil
    simpa [write, render, Place.before, Place.after] using hne
  | symbol name =>
    have hne := h.1.ne_nil
    simpa [write, render, Place.before, Place.after] using hne
  | form | native | closure | elseMarker => exact h.elim
  | _ => simp [write, render, Place.before, Place.empty]

/-- The text of a legible value has the tokens of the value. -/
theorem tokens_write {v : Value} {room : Nat} (h : v.Legible .alone room) :
    Source.tokens (String.ofList v.write) = .ok (v.tokens .alone ++ [.endOfLine]) := by
  have hscans : Scans v.write (v.tokens .alone) := scans_render h
  rw [Source.tokens, ofSource_of_scans hscans (write_ne_nil h)]
  rfl

end MiniScheme.Value

import MiniScheme.Proofs.Value.Renaming

/-!
# Stores up to a renaming of places

Two stores match under a renaming if the tables at corresponding places bind the same names, in the
same order, to the same values. A name then means the same in corresponding chains of tables, is
found at corresponding places, and the chains collapse to the same table.

## Main definitions

* `Table.Same`: tables with the same bindings in the same order.
* `Env.Same`: chains of corresponding places.
* `Store.Matches`: corresponding places hold the same tables.

## Main statements

* `Store.Matches.get?`, `Store.Matches.find?`, `Store.Matches.collapse`: looking through chains.
-/

namespace MiniScheme

/-! ## Tables -/

namespace Table

variable {r r' : Renaming}

def SameEntry (r : Renaming) (e e' : String × Value) : Prop := e.1 = e'.1 ∧ e.2.Same r e'.2

/-- Two tables that bind the same names, in the same order, to the same values. -/
def Same (r : Renaming) (t u : Table) : Prop := List.Forall₂ (SameEntry r) t.entries u.entries

theorem sameEntry_insertEntry {es us : List (String × Value)} {v w : Value} (x : String)
    (h : List.Forall₂ (SameEntry r) es us) (hv : v.Same r w) :
    List.Forall₂ (SameEntry r) (insertEntry x v es) (insertEntry x w us) := by
  induction h with
  | nil => exact .cons ⟨rfl, hv⟩ .nil
  | @cons e u es us he hrest ih =>
    obtain ⟨y, v'⟩ := e
    obtain ⟨_, w'⟩ := u
    obtain ⟨rfl, hv'⟩ := he
    by_cases hy : y = x
    · simpa [insertEntry, hy] using ⟨⟨rfl, hv⟩, hrest⟩
    · simpa [insertEntry, hy] using ⟨⟨rfl, hv'⟩, ih⟩

theorem sameEntry_findValue {es us : List (String × Value)} (x : String)
    (h : List.Forall₂ (SameEntry r) es us) :
    Option.Rel (Value.Same r) (findValue? x es) (findValue? x us) := by
  induction h with
  | nil => exact .none
  | cons he _ ih =>
    simp only [findValue?, he.1]
    split
    · exact .some he.2
    · exact ih

theorem get?_of_mem_entries {t : Table} {x : String} {v : Value} (h : (x, v) ∈ t.entries) :
    t.get? x = some v := by
  obtain ⟨entries, nodup⟩ := t
  change findValue? x entries = some v
  induction entries with
  | nil => cases h
  | cons e rest ih =>
    simp only [List.map_cons, List.nodup_cons] at nodup
    rcases List.mem_cons.mp h with rfl | hmem
    · simp [findValue?]
    · have hne : e.1 ≠ x := fun he => nodup.1 (he ▸ List.mem_map_of_mem hmem)
      simpa [findValue?, hne] using ih nodup.2 hmem

namespace Same

variable {t u t' u' : Table}

theorem empty : Table.empty.Same r .empty := .nil

theorem get? (h : t.Same r u) (x : String) :
    Option.Rel (Value.Same r) (t.get? x) (u.get? x) := sameEntry_findValue x h

theorem contains_eq (h : t.Same r u) (x : String) : t.contains x = u.contains x := by
  have hget := h.get? x
  unfold contains
  generalize t.get? x = a at hget ⊢
  generalize u.get? x = b at hget ⊢
  cases hget <;> rfl

theorem insert (h : t.Same r u) (x : String) {v w : Value} (hv : v.Same r w) :
    (t.insert x v).Same r (u.insert x w) := sameEntry_insertEntry x h hv

theorem insertAll (h : t.Same r u) {es us : List (String × Value)}
    (hes : List.Forall₂ (SameEntry r) es us) : (t.insertAll es).Same r (u.insertAll us) := by
  induction hes generalizing t u with
  | nil => exact h
  | @cons e e' es us he _ ih =>
    obtain ⟨x, v⟩ := e
    obtain ⟨_, w⟩ := e'
    obtain ⟨rfl, hv⟩ := he
    exact ih (h.insert x hv)

theorem merge (h : t.Same r u) (h' : t'.Same r u') : (t.merge t').Same r (u.merge u') := by
  rw [merge_eq_insertAll, merge_eq_insertAll]
  exact h.insertAll h'

/-- The same table under a renaming that knows at least as much about its values. -/
theorem imp (h : t.Same r u)
    (hplace : ∀ {x v formals body i j}, t.get? x = some v →
      .closure formals body i ∈ v.closures → r.place i j → r'.place i j)
    (hinstallation : ∀ {m n}, r.installation m n → r'.installation m n) : t.Same r' u := by
  have hentries : ∀ {es us}, List.Forall₂ (SameEntry r) es us → es ⊆ t.entries →
      List.Forall₂ (SameEntry r') es us := by
    intro es us hes hsub
    induction hes with
    | nil => exact .nil
    | cons he _ ih =>
      obtain ⟨hmem, hsub⟩ := List.cons_subset.mp hsub
      exact .cons ⟨he.1, he.2.imp (hplace (get?_of_mem_entries hmem)) hinstallation⟩ (ih hsub)
  exact hentries h (List.Subset.refl _)

theorem eq_of_fixes (h : t.Same r u) (hr : r.Fixes) : t = u := by
  apply ext
  have heq : List.Forall₂ Eq t.entries u.entries :=
    List.Forall₂.imp (fun e e' he => Prod.ext he.1 (he.2.eq_of_fixes hr)) h
  rwa [List.forall₂_eq_eq_eq] at heq

/-- A table is the same as itself if the places in its values correspond to themselves. -/
theorem refl (hplace : ∀ {x v formals body i}, t.get? x = some v →
      .closure formals body i ∈ v.closures → r.place i i)
    (hinstallation : ∀ n, r.installation n n) : t.Same r t := by
  refine List.forall₂_same.mpr fun e he => ⟨rfl, .refl (fun hmem => ?_) hinstallation⟩
  exact hplace (get?_of_mem_entries he) hmem

end Same

end Table

/-! ## Chains of tables -/

structure Env.Same (r : Renaming) (env env' : Env) : Prop where
  inner : List.Forall₂ r.place env.inner env'.inner
  root : r.place env.root env'.root

namespace Env.Same

variable {r : Renaming} {env env' : Env}

theorem tables (h : env.Same r env') : List.Forall₂ r.place env.tables env'.tables :=
  List.rel_append h.inner (.cons h.root .nil)

theorem push (h : env.Same r env') {i j : TableId} (hplace : r.place i j) :
    (env.push i).Same r (env'.push j) := ⟨.cons hplace h.inner, h.root⟩

end Env.Same

/-! ## Stores -/

/-- Two stores that hold the same tables at corresponding places. -/
def Store.Matches (r : Renaming) (s s' : Store) : Prop :=
  ∀ i j, r.place i j → (s.table i).Same r (s'.table j)

namespace Store.Matches

variable {r : Renaming} {s s' : Store} {env env' : Env}

theorem get? (h : s.Matches r s') (henv : env.Same r env') (x : String) :
    Option.Rel (Value.Same r) (s.get? env x) (s'.get? env' x) := by
  rw [get?_eq, get?_eq]
  have htables := henv.tables
  generalize env.tables = ids at htables ⊢
  generalize env'.tables = ids' at htables ⊢
  induction htables with
  | nil => exact .none
  | @cons i j _ _ hplace _ ih =>
    have hget := (h _ _ hplace).get? x
    rw [List.findSome?_cons, List.findSome?_cons]
    generalize (s.table i).get? x = a at hget ⊢
    generalize (s'.table j).get? x = b at hget ⊢
    cases hget with
    | none => exact ih
    | some hv => exact .some hv

theorem find? (h : s.Matches r s') (henv : env.Same r env') (x : String) :
    Option.Rel r.place (s.find? env x) (s'.find? env' x) := by
  rw [find?_eq, find?_eq]
  have htables := henv.tables
  generalize env.tables = ids at htables ⊢
  generalize env'.tables = ids' at htables ⊢
  induction htables with
  | nil => exact .none
  | cons hplace _ ih =>
    simp only [List.find?_cons, (h _ _ hplace).contains_eq x]
    split
    · exact .some hplace
    · exact ih

theorem collapse (h : s.Matches r s') (henv : env.Same r env') :
    (s.collapse env).Same r (s'.collapse env') := by
  obtain ⟨inner, root⟩ := env
  obtain ⟨inner', root'⟩ := env'
  obtain ⟨hinner, hroot⟩ := henv
  unfold Store.collapse
  dsimp only at hinner hroot ⊢
  induction hinner with
  | nil => exact h _ _ hroot
  | cons hplace _ ih => exact ih.merge (h _ _ hplace)

end Store.Matches

end MiniScheme

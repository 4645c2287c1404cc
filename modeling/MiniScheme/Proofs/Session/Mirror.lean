import MiniScheme.Proofs.Eval.Locality
import MiniScheme.Proofs.Session.Process
import MiniScheme.Proofs.Session.Program

/-!
# Worlds that mirror a part of others

A world mirrors a part of another one if everything in that part is there, maybe at other places.
The part is closed: what is bound in it captures only tables of it, and what is bound outside
captures only tables outside. So a program that runs outside does not change it, and a program that
runs in it goes the same way in the mirror.

## Main definitions

* `Store.Placed`: every closure has captured a table that is there.
* `World.Mirrors`: a world mirrors a part of another one.
* `Renaming.Extends`: a renaming that knows more, but not about what was there already.

## Main statements

* `World.Mirrors.register`, `World.Mirrors.run`: sessions of the part and of the mirror.
* `World.Mirrors.register_outside`, `World.Mirrors.run_outside`: sessions outside of the part.
-/

namespace MiniScheme

/-! ## Closures with tables that are there -/

/-- Every closure that is bound has captured a table that is there. -/
structure Store.Placed (s : Store) : Prop where
  captured_lt : ∀ {id x v formals body captured}, (s.table id).get? x = some v →
    .closure formals body captured ∈ v.closures → captured < s.tables.size

def Discipline.placed : Discipline where
  World := Nat
  le n n' := n ≤ n'
  le_refl := Nat.le_refl
  le_trans := Nat.le_trans
  store n s := s.tables.size = n
  closure n _ _ captured := captured < n
  env _ _ := True
  frame _ _ := True
  closure_mono hle h := Nat.lt_of_lt_of_le h hle
  env_mono _ _ := trivial
  frame_mono _ _ := trivial
  opens {n s} h := ⟨n + 1, Nat.le_succ n, by rw [Store.size_allocate, h], trivial⟩
  fills {n s id} x v h _ := ⟨n, Nat.le_refl n, by rw [Store.size_define, h]⟩
  encloses _ _ := trivial
  assigns {n s e id x} v _ h _ _ := ⟨n, Nat.le_refl n, by rw [Store.size_define, h]⟩
  defines {n s e x} v _ h _ := ⟨n, Nat.le_refl n, by rw [Store.size_define, h]⟩
  captures {n s e formals body es} h _ _ _ :=
    ⟨n + 1, Nat.le_succ n, by rw [Store.size_allocate, h], by rw [h]; exact Nat.lt_succ_self n⟩

theorem Discipline.placed_matched (traced : Bool) (depth : Nat) :
    placed.Matched .silent .silent (.watched .silent traced depth)
      (.watched .silent traced depth) :=
  matched (fun _ hm => hm) (fun _ _ _ => trivial) (fun _ _ _ _ => trivial)
    (fun h => h.calls fun henv _ => henv) traced depth

/-- A run leaves only closures behind that have captured a table that is there. -/
theorem Session.placed_run {session : Session} {traced : Bool} {source : String} {world : World}
    (h : world.store.Placed) :
    (session.run traced source world).world.store.Placed ∧
      ∀ {v}, (session.run traced source world).answer = .ok v → ∀ {formals body captured},
        .closure formals body captured ∈ v.closures →
        captured < (session.run traced source world).world.store.tables.size := by
  have hkeeps : Discipline.placed.Keeps world.store.tables.size world.store :=
    ⟨rfl, fun hget _ _ _ hmem => h.captured_lt hget hmem⟩
  have htracks : Discipline.Tracks .silent .silent world.store.tables.size
      (session.program traced source world .silent) (session.program traced source world .silent)
      Discipline.placed.Allows :=
    (Discipline.placed_matched traced world.limit).program trivial source
  have hends := (htracks ⟨world.store, []⟩ hkeeps).ends
  obtain ⟨n, -, hfinal, hanswer⟩ := hends.final
  have hstore : (session.run traced source world).world.store =
      (finalState (session.program traced source world .silent ⟨world.store, []⟩)).store := by
    rw [Session.run_world]
  rw [← hstore] at hfinal
  refine ⟨⟨fun hget hmem => ?_⟩, fun hok _ _ _ hmem => ?_⟩
  · rw [hfinal.store]
    exact hfinal.values hget _ _ _ hmem
  · obtain ⟨s, hs⟩ := Session.program_of_run hok
    rw [hfinal.store]
    exact hanswer _ s hs _ _ _ hmem

/-! ## Renamings that know more -/

namespace Renaming

def Knows (r : Renaming) (i : TableId) : Prop := ∃ j, r.place i j

/-- A renaming that knows more than another one, but nothing more about the places below a bound. -/
structure Extends (r' r : Renaming) (bound : Nat) : Prop where
  place : ∀ {i j}, r.place i j → r'.place i j
  installation : ∀ {m n}, r.installation m n → r'.installation m n
  old : ∀ {i j}, r'.place i j → i < bound → r.place i j

theorem Extends.knows {r r' : Renaming} {bound : Nat} (h : r'.Extends r bound) {i : TableId}
    (hi : i < bound) (hknows : r'.Knows i) : r.Knows i := by
  obtain ⟨j, hj⟩ := hknows
  exact ⟨j, h.old hj hi⟩

theorem Extends.trans {r r₁ r₂ : Renaming} {bound bound₁ : Nat} (h : r₁.Extends r bound)
    (h₁ : r₂.Extends r₁ bound₁) (hle : bound ≤ bound₁) : r₂.Extends r bound where
  place hplace := h₁.place (h.place hplace)
  installation hinst := h₁.installation (h.installation hinst)
  old hplace hlt := h.old (h₁.old hplace (Nat.lt_of_lt_of_le hlt hle)) hlt

theorem biUnique_or {R S : Nat → Nat → Prop} {m n : Nat} (hR : Relator.BiUnique R)
    (hS : Relator.BiUnique S) (hbelow : ∀ {i j}, R i j → i < m ∧ j < n)
    (hbeyond : ∀ {i j}, S i j → m ≤ i ∧ n ≤ j) : Relator.BiUnique fun i j => R i j ∨ S i j := by
  refine ⟨?_, ?_⟩
  · rintro i i' j (h | h) (h' | h')
    · exact hR.1 h h'
    · exact absurd (hbelow h).2 (Nat.not_lt_of_le (hbeyond h').2)
    · exact absurd (hbelow h').2 (Nat.not_lt_of_le (hbeyond h).2)
    · exact hS.1 h h'
  · rintro i j j' (h | h) (h' | h')
    · exact hR.2 h h'
    · exact absurd (hbelow h).1 (Nat.not_lt_of_le (hbeyond h').1)
    · exact absurd (hbelow h').1 (Nat.not_lt_of_le (hbeyond h).1)
    · exact hS.2 h h'

variable (r : Renaming) {m n : Nat}

/-- A renaming of places below two bounds, in which the places from the bounds on correspond in
turn. -/
def shift (h : ∀ {i j}, r.place i j → i < m ∧ j < n) : Renaming where
  place i j := r.place i j ∨ ∃ k, i = m + k ∧ j = n + k
  installation := r.installation
  biUnique_place := by
    refine biUnique_or r.biUnique_place ⟨?_, ?_⟩ h ?_
    · rintro i i' j ⟨k, rfl, rfl⟩ ⟨k', rfl, hk'⟩
      rw [Nat.add_left_cancel hk']
    · rintro i j j' ⟨k, rfl, rfl⟩ ⟨k', hk', rfl⟩
      rw [Nat.add_left_cancel hk']
    · rintro i j ⟨k, rfl, rfl⟩
      exact ⟨Nat.le_add_right m k, Nat.le_add_right n k⟩
  biUnique_installation := r.biUnique_installation

def below (bound : Nat) : Renaming where
  place i j := r.place i j ∧ i < bound
  installation := r.installation
  biUnique_place := ⟨fun _ _ _ h h' => r.biUnique_place.1 h.1 h'.1,
    fun _ _ _ h h' => r.biUnique_place.2 h.1 h'.1⟩
  biUnique_installation := r.biUnique_installation

/-- A renaming of installations below two bounds, in which the installations at the bounds
correspond. -/
def withInstallation (h : ∀ {i j}, r.installation i j → i < m ∧ j < n) : Renaming where
  place := r.place
  installation i j := r.installation i j ∨ i = m ∧ j = n
  biUnique_place := r.biUnique_place
  biUnique_installation := by
    refine biUnique_or r.biUnique_installation ⟨?_, ?_⟩ h ?_
    · rintro i i' j ⟨rfl, -⟩ ⟨rfl, -⟩
      rfl
    · rintro i j j' ⟨-, rfl⟩ ⟨-, rfl⟩
      rfl
    · rintro i j ⟨rfl, rfl⟩
      exact ⟨Nat.le_refl _, Nat.le_refl _⟩

end Renaming

/-! ## Answers -/

/-- Two errors of one kind with the same wording. -/
inductive RunError.Alike : RunError → RunError → Prop where
  | same (e : RunError) : Alike e e
  | evaluation {f g : Fault} (hkind : f.kind = g.kind) (hmessage : f.message? = g.message?) :
      Alike (.evaluation f) (.evaluation g)

theorem RunError.Alike.ofFault {r : Renaming} {f g : Fault} (h : f.Same r g) :
    Alike (.ofFault f) (.ofFault g) := by
  have h' := h
  cases h with
  | plain _ => exact .same _
  | _ => exact .evaluation h'.kind_eq h'.message?_eq

inductive Session.SameAnswer (r : Renaming) :
    Except RunError Value → Except RunError Value → Prop where
  | ok {v w : Value} (h : v.Same r w) : SameAnswer r (.ok v) (.ok w)
  | error {e e' : RunError} (h : e.Alike e') : SameAnswer r (.error e) (.error e')

theorem Session.SameAnswer.reply {r r' : Renaming} {a b : Except Fault Value}
    {mistake : Option RunError} (h : r.Answers (Value.Same r) a b)
    (himp : ∀ {v w}, Session.reply mistake a = .ok v → v.Same r w → v.Same r' w) :
    SameAnswer r' (Session.reply mistake a) (Session.reply mistake b) := by
  cases h with
  | error hf => exact .error (.ofFault hf)
  | ok hv =>
    cases mistake with
    | some e => exact .error (.same e)
    | none => exact .ok (himp rfl hv)

inductive Session.SameOpening (r : Renaming) :
    Except RunError Session → Except RunError Session → Prop where
  | ok {a b : Session} (h : r.place a.root b.root) : SameOpening r (.ok a) (.ok b)
  | error {e e' : RunError} (h : e.Alike e') : SameOpening r (.error e) (.error e')

theorem Session.SameAnswer.map {r : Renaming} {a b : Except RunError Value}
    {session session' : Session} (h : SameAnswer r a b)
    (hroot : r.place session.root session'.root) :
    SameOpening r (a.map fun _ => session) (b.map fun _ => session') := by
  cases h with
  | ok _ => exact .ok hroot
  | error he => exact .error he

/-- What comes of a session that has just been registered: a setting that is no limit makes it fail,
and otherwise the prelude is run, if there is one. -/
def Session.load (traced : Bool) (setting : Except Settings.InvalidLimit (Option Nat))
    (source : Option String) (opened : Session × World) : Except RunError Session × World :=
  match setting, source with
  | .error e, _ => (.error (.limit e), opened.2)
  | .ok _, none => (.ok opened.1, opened.2)
  | .ok _, some source =>
    let outcome := opened.1.run traced source opened.2
    (outcome.answer.map fun _ => opened.1, outcome.world)

/-- Opening a session, if its setting leaves the limit as it is. -/
theorem Session.start_within {setting : String} {world : World}
    (h : ∀ n, Settings.limit? setting = .ok (some n) → n ≤ world.limit) (prelude : Prelude)
    (traced : Bool) :
    ((start prelude setting traced world).answer, (start prelude setting traced world).world) =
      load traced (Settings.limit? setting) (preludeSource? prelude).2 (register world) := by
  have hlimit : (register world).2.limit = world.limit := rfl
  unfold start load
  generalize register world = opened at hlimit ⊢
  obtain ⟨session, registered⟩ := opened
  dsimp only at hlimit ⊢
  cases hsetting : Settings.limit? setting with
  | error e => rfl
  | ok limit =>
    have hraise : raiseLimit limit registered = ([], .ok registered) := by
      cases limit with
      | none => rfl
      | some n => exact if_neg (Nat.not_lt_of_le (hlimit ▸ h n hsetting))
    simp only [hraise]
    cases (preludeSource? prelude).2 with
    | none => rfl
    | some source => rfl

/-! ## Mirrors -/

/-- A world mirrors the part of another one that a renaming knows. -/
structure World.Mirrors (r : Renaming) (world world' : World) : Prop where
  limit : world.limit = world'.limit
  place_lt : ∀ {i j}, r.place i j → i < world.store.tables.size ∧ j < world'.store.tables.size
  installation_lt : ∀ {m n}, r.installation m n →
    m < world.store.installations ∧ n < world'.store.installations
  tables : world.store.Matches r world'.store
  placed : world.store.Placed
  apart : ∀ {i x v formals body captured}, ¬ r.Knows i → (world.store.table i).get? x = some v →
    .closure formals body captured ∈ v.closures → ¬ r.Knows captured

namespace World.Mirrors

variable {r : Renaming} {world world' : World}

/-! ## Registering a session -/

theorem sameEntry_builtins {m n : Nat} (h : r.installation m n) :
    List.Forall₂ (Table.SameEntry r) (builtins m) (builtins n) := by
  have hforms : ∀ fs : List Form, List.Forall₂ (Table.SameEntry r)
      (fs.map fun f => (f.name, Value.form f m)) (fs.map fun f => (f.name, Value.form f n)) := by
    intro fs
    induction fs with
    | nil => exact .nil
    | cons f fs ih => exact .cons ⟨rfl, .form f h⟩ ih
  have hnatives : ∀ ps : List Native, List.Forall₂ (Table.SameEntry r)
      (ps.map fun p => (p.name, Value.native p m))
      (ps.map fun p => (p.name, Value.native p n)) := by
    intro ps
    induction ps with
    | nil => exact .nil
    | cons p ps ih => exact .cons ⟨rfl, .native p h⟩ ih
  refine List.rel_append (List.rel_append (hforms _) (hnatives _)) ?_
  exact .cons ⟨rfl, .elseMarker⟩ (.cons ⟨rfl, .nil⟩ .nil)

/-- A closure that is bound after a registration was bound before. -/
theorem get?_of_register {id captured : TableId} {x : String} {v formals body : Value}
    (hget : ((Session.register world).2.store.table id).get? x = some v)
    (hmem : .closure formals body captured ∈ v.closures) :
    (world.store.table id).get? x = some v := by
  rw [Session.table_register, Store.table_allocate] at hget
  split at hget
  · rw [closures_builtinTable hget] at hmem
    cases hmem
  · exact hget

theorem size_register (world : World) :
    (Session.register world).2.store.tables.size = world.store.tables.size + 1 := by
  rw [Session.tables_register, Array.size_push]

theorem placed_register (h : world.store.Placed) : (Session.register world).2.store.Placed := by
  refine ⟨fun hget hmem => ?_⟩
  rw [size_register]
  exact Nat.lt_succ_of_lt (h.captured_lt (get?_of_register hget hmem) hmem)

/-- A session that is registered outside of the part. -/
theorem register_outside (h : world.Mirrors r world') :
    (Session.register world).2.Mirrors r world' ∧
      ¬ r.Knows (Session.register world).1.root := by
  refine ⟨⟨h.limit, fun hplace => ?_, fun hinst => ?_, fun i j hplace => ?_, ?_, ?_⟩, ?_⟩
  · obtain ⟨hi, hj⟩ := h.place_lt hplace
    exact ⟨by rw [size_register]; exact Nat.lt_succ_of_lt hi, hj⟩
  · obtain ⟨hm, hn⟩ := h.installation_lt hinst
    exact ⟨Nat.lt_succ_of_lt hm, hn⟩
  · rw [Session.table_register, Store.table_allocate_of_lt (h.place_lt hplace).1]
    exact h.tables i j hplace
  · exact placed_register h.placed
  · exact fun hi hget hmem => h.apart hi (get?_of_register hget hmem) hmem
  · rintro ⟨j, hj⟩
    exact Nat.lt_irrefl _ (h.place_lt hj).1

/-- A session that is registered in the part and in the mirror. -/
theorem register (h : world.Mirrors r world') :
    ∃ r', r'.Extends r world.store.tables.size ∧
      (Session.register world).2.Mirrors r' (Session.register world').2 ∧
      r'.place (Session.register world).1.root (Session.register world').1.root := by
  let r' := ((r.withInstallation h.installation_lt).shift h.place_lt).below
    (world.store.tables.size + 1)
  have hextends : r'.Extends r world.store.tables.size := by
    refine ⟨fun hplace => ⟨.inl hplace, Nat.lt_succ_of_lt (h.place_lt hplace).1⟩, .inl, ?_⟩
    rintro i j ⟨hplace | ⟨k, rfl, -⟩, -⟩ hlt
    · exact hplace
    · exact absurd hlt (Nat.not_lt_of_le (Nat.le_add_right _ k))
  -- the only new places are those of the two roots
  have hcases : ∀ {i j}, r'.place i j →
      r.place i j ∨ i = world.store.tables.size ∧ j = world'.store.tables.size := by
    rintro i j ⟨hplace | ⟨k, rfl, rfl⟩, hlt⟩
    · exact .inl hplace
    · obtain rfl : k = 0 := Nat.lt_one_iff.mp (Nat.lt_of_add_lt_add_left hlt)
      exact .inr ⟨rfl, rfl⟩
  have hroot : r'.place world.store.tables.size world'.store.tables.size :=
    ⟨.inr ⟨0, rfl, rfl⟩, Nat.lt_succ_self _⟩
  have hinstalled : r'.installation world.store.installations world'.store.installations :=
    .inr ⟨rfl, rfl⟩
  refine ⟨r', hextends, ⟨h.limit, fun hplace => ?_, ?_, fun i j hplace => ?_, ?_, ?_⟩, hroot⟩
  · rw [size_register, size_register]
    rcases hcases hplace with hold | ⟨rfl, rfl⟩
    · obtain ⟨hi, hj⟩ := h.place_lt hold
      exact ⟨Nat.lt_succ_of_lt hi, Nat.lt_succ_of_lt hj⟩
    · exact ⟨Nat.lt_succ_self _, Nat.lt_succ_self _⟩
  · rintro m n (hold | ⟨rfl, rfl⟩)
    · obtain ⟨hm, hn⟩ := h.installation_lt hold
      exact ⟨Nat.lt_succ_of_lt hm, Nat.lt_succ_of_lt hn⟩
    · exact ⟨Nat.lt_succ_self _, Nat.lt_succ_self _⟩
  · rw [Session.table_register, Session.table_register]
    rcases hcases hplace with hold | ⟨rfl, rfl⟩
    · obtain ⟨hi, hj⟩ := h.place_lt hold
      rw [Store.table_allocate_of_lt hi, Store.table_allocate_of_lt hj]
      exact (h.tables i j hold).imp (fun _ _ => hextends.place) hextends.installation
    · rw [Store.table_allocate, Store.table_allocate, if_pos rfl, if_pos rfl]
      exact Table.Same.empty.insertAll (sameEntry_builtins hinstalled)
  · exact placed_register h.placed
  · intro i x v formals body captured hi hget hmem hknows
    have hold := get?_of_register hget hmem
    have hlt := h.placed.captured_lt hold hmem
    refine h.apart (fun hr => hi ?_) hold hmem (hextends.knows hlt hknows)
    obtain ⟨j, hj⟩ := hr
    exact ⟨j, hextends.place hj⟩

/-! ## Running a program -/

/-- A program stays among some places, if what is bound there captures no others and all places to
come belong to them. -/
theorem evaluated_among {known : TableId → Prop} {session : Session} {s t : EvalState}
    {traced : Bool} {source : String} {limit : Nat}
    (ht : finalState (session.evaluated traced source limit s) = t)
    (hroot : known session.root) (hnew : ∀ {i : Nat}, s.store.tables.size ≤ i → known i)
    (hclosed : ∀ {i x v formals body captured}, known i → (s.store.table i).get? x = some v →
      .closure formals body captured ∈ v.closures → known captured) :
    s.store.tables.size ≤ t.store.tables.size ∧ t.store.installations = s.store.installations ∧
      (∀ {i}, ¬ known i → t.store.table i = s.store.table i) ∧
      ∀ {i x v formals body captured}, known i → (t.store.table i).get? x = some v →
        .closure formals body captured ∈ v.closures → known captured := by
  let c : Correspondence := .diagonal s s known rfl hnew
  have hplace : c.place session.root session.root := ⟨rfl, hroot⟩
  have hends : c.Ends (Value.Same c.toRenaming) (session.evaluated traced source limit s)
      (session.evaluated traced source limit s) :=
    c.ends_program hplace (Store.matches_on (fun _ => rfl) hclosed) traced source limit
  have hholds : c.Holds t t := ht ▸ hends.final.1
  obtain ⟨k, hk, -⟩ := hholds.added
  refine ⟨hk ▸ Nat.le_add_right _ k, hholds.installations_left, fun hi => ?_, ?_⟩
  · exact hholds.left fun _ hplace => hi hplace.2
  · intro i x v formals body captured hi hget hmem
    have hsame := (hholds.tables i i ⟨rfl, hi⟩).get? x
    rw [hget] at hsame
    cases hsame with
    | some hv => exact Renaming.known_of_same_on hv hmem

theorem size_le_run (session : Session) (traced : Bool) (source : String) (world : World) :
    world.store.tables.size ≤ (session.run traced source world).world.store.tables.size := by
  rw [Session.run_eq]
  exact (@evaluated_among (fun _ => True) session ⟨world.store, []⟩ _ traced source world.limit rfl
    trivial (fun _ => trivial) fun _ _ _ => trivial).1

/-- A program that runs outside of the part. -/
theorem run_outside (h : world.Mirrors r world') {session : Session}
    (hroot : ¬ r.Knows session.root) (traced : Bool) (source : String) :
    (session.run traced source world).world.Mirrors r world' := by
  obtain ⟨hplaced, -⟩ : (session.run traced source world).world.store.Placed ∧ _ :=
    Session.placed_run h.placed
  rw [Session.run_eq] at hplaced ⊢
  have hnew : ∀ {i : Nat}, world.store.tables.size ≤ i → ¬ r.Knows i :=
    fun hle ⟨_, hj⟩ => Nat.not_lt_of_le hle (h.place_lt hj).1
  obtain ⟨hsize, hinstallations, hsame, hapart⟩ :=
    @evaluated_among (fun i => ¬ r.Knows i) session ⟨world.store, []⟩ _ traced source world.limit
      rfl hroot hnew h.apart
  refine ⟨h.limit, fun hplace => ?_, fun hinst => ?_, fun i j hplace => ?_, hplaced, hapart⟩
  · obtain ⟨hi, hj⟩ := h.place_lt hplace
    exact ⟨Nat.lt_of_lt_of_le hi hsize, hj⟩
  · obtain ⟨hm, hn⟩ := h.installation_lt hinst
    exact ⟨hinstallations ▸ hm, hn⟩
  · have hunchanged := hsame (not_not.mpr ⟨j, hplace⟩)
    exact hunchanged ▸ h.tables i j hplace

def correspondence (h : world.Mirrors r world') : Correspondence :=
  { r.shift h.place_lt with
    left := ⟨world.store, []⟩
    right := ⟨world'.store, []⟩
    fresh := fun k => .inr ⟨k, rfl, rfl⟩ }

theorem matches_correspondence (h : world.Mirrors r world') :
    world.store.Matches h.correspondence.toRenaming world'.store := by
  rintro i j (hplace | ⟨k, rfl, rfl⟩)
  · exact (h.tables i j hplace).imp (fun _ _ => .inl) id
  · rw [Store.table_of_size_le (Nat.le_add_right _ k),
      Store.table_of_size_le (Nat.le_add_right _ k)]
    exact .empty

theorem extends_correspondence (h : world.Mirrors r world') {bound : Nat}
    (hle : world.store.tables.size ≤ bound) :
    (h.correspondence.toRenaming.below bound).Extends r world.store.tables.size := by
  refine ⟨fun hplace => ⟨.inl hplace, Nat.lt_of_lt_of_le (h.place_lt hplace).1 hle⟩, id, ?_⟩
  rintro i j ⟨hplace | ⟨k, rfl, -⟩, -⟩ hlt
  · exact hplace
  · exact absurd hlt (Nat.not_lt_of_le (Nat.le_add_right _ k))

/-- A mirror stays one as evaluation goes on in both worlds. -/
theorem of_holds (h : world.Mirrors r world') {t t' : EvalState}
    (hholds : h.correspondence.Holds t t') (hplaced : t.store.Placed)
    (hsize : world.store.tables.size ≤ t.store.tables.size) :
    World.Mirrors (h.correspondence.toRenaming.below t.store.tables.size)
      { world with store := t.store } { world' with store := t'.store } where
  limit := h.limit
  place_lt hplace := ⟨hplace.2, (hholds.lt_size_iff hplace.1).mp hplace.2⟩
  installation_lt hinst := by
    rw [hholds.installations_left, hholds.installations_right]
    exact h.installation_lt hinst
  tables i j hplace := by
    refine (hholds.tables i j hplace.1).imp (fun hget hmem hp => ?_) id
    exact ⟨hp, hplaced.captured_lt hget hmem⟩
  placed := hplaced
  apart {i x v formals body captured} hi hget hmem hknows := by
    have hlt : i < t.store.tables.size := Store.lt_size_of_get? hget
    -- what is outside of the part was there before, and is unchanged
    rw [hholds.left fun j hj => hi ⟨j, hj, hlt⟩] at hget
    refine h.apart (fun hr => hi ?_) hget hmem
      ((h.extends_correspondence hsize).knows (h.placed.captured_lt hget hmem) hknows)
    obtain ⟨j, hj⟩ := hr
    exact ⟨j, .inl hj, hlt⟩

/-- A program that runs in the part and in the mirror. -/
theorem run (h : world.Mirrors r world') {session session' : Session}
    (hroot : r.place session.root session'.root) (traced : Bool) (source : String) :
    ∃ r', r'.Extends r world.store.tables.size ∧
      (session.run traced source world).world.Mirrors r'
        (session'.run traced source world').world ∧
      Session.SameAnswer r' (session.run traced source world).answer
        (session'.run traced source world').answer := by
  have hends : h.correspondence.Ends (Value.Same h.correspondence.toRenaming)
      (session.evaluated traced source world.limit ⟨world.store, []⟩)
      (session'.evaluated traced source world.limit ⟨world'.store, []⟩) :=
    h.correspondence.ends_program (.inl hroot) h.matches_correspondence traced source world.limit
  obtain ⟨hholds, hanswers⟩ := hends.final
  have hsize := size_le_run session traced source world
  obtain ⟨hplaced, hcaptured⟩ : (session.run traced source world).world.store.Placed ∧ _ :=
    Session.placed_run h.placed
  rw [Session.run_eq] at hsize hplaced hcaptured
  rw [Session.run_eq session, Session.run_eq session', ← h.limit]
  refine ⟨_, h.extends_correspondence hsize, h.limit ▸ h.of_holds hholds hplaced hsize, ?_⟩
  exact .reply hanswers fun hok hv => hv.imp (fun hmem hp => ⟨hp, hcaptured hok hmem⟩) id

/-! ## Opening a session -/

theorem size_lt_start {setting : String}
    (hwithin : ∀ n, Settings.limit? setting = .ok (some n) → n ≤ world.limit) (prelude : Prelude)
    (traced : Bool) : world.store.tables.size <
      (Session.start prelude setting traced world).world.store.tables.size := by
  have hregister : world.store.tables.size < (Session.register world).2.store.tables.size := by
    rw [size_register]
    exact Nat.lt_succ_self _
  have hstart := congrArg Prod.snd (Session.start_within hwithin prelude traced)
  dsimp only at hstart
  rw [hstart]
  unfold Session.load
  split
  · exact hregister
  · exact hregister
  · exact Nat.lt_of_lt_of_le hregister (size_le_run _ traced _ _)

theorem limit_start {setting : String}
    (hwithin : ∀ n, Settings.limit? setting = .ok (some n) → n ≤ world.limit) (prelude : Prelude)
    (traced : Bool) : (Session.start prelude setting traced world).world.limit = world.limit := by
  have hstart := congrArg Prod.snd (Session.start_within hwithin prelude traced)
  dsimp only at hstart
  rw [hstart]
  unfold Session.load
  split
  · rfl
  · rfl
  · rw [Session.run_eq]
    rfl

/-- A session that is opened outside of the part. -/
theorem start_outside (h : world.Mirrors r world') {setting : String}
    (hwithin : ∀ n, Settings.limit? setting = .ok (some n) → n ≤ world.limit) (prelude : Prelude)
    (traced : Bool) :
    (Session.start prelude setting traced world).world.Mirrors r world' ∧
      ∀ {session}, (Session.start prelude setting traced world).answer = .ok session →
        ¬ r.Knows session.root := by
  obtain ⟨hregister, hroot⟩ := h.register_outside
  refine ⟨?_, fun hok => Session.eq_of_start hok ▸ hroot⟩
  have hstart := congrArg Prod.snd (Session.start_within hwithin prelude traced)
  dsimp only at hstart
  rw [hstart]
  unfold Session.load
  split
  · exact hregister
  · exact hregister
  · exact hregister.run_outside hroot traced _

/-- A session that is opened in the part and in the mirror. -/
theorem start (h : world.Mirrors r world') {setting : String}
    (hwithin : ∀ n, Settings.limit? setting = .ok (some n) → n ≤ world.limit) (prelude : Prelude)
    (traced : Bool) :
    ∃ r', r'.Extends r world.store.tables.size ∧
      (Session.start prelude setting traced world).world.Mirrors r'
        (Session.start prelude setting traced world').world ∧
      Session.SameOpening r' (Session.start prelude setting traced world).answer
        (Session.start prelude setting traced world').answer := by
  obtain ⟨r₁, hextends, hregister, hroot⟩ := h.register
  have hstart := Session.start_within hwithin prelude traced
  have hstart' := Session.start_within (h.limit ▸ hwithin) prelude traced
  obtain ⟨hanswer, hworld⟩ := Prod.mk.inj hstart
  obtain ⟨hanswer', hworld'⟩ := Prod.mk.inj hstart'
  rw [hanswer, hworld, hanswer', hworld']
  cases Settings.limit? setting with
  | error e => exact ⟨r₁, hextends, hregister, .error (.same _)⟩
  | ok limit =>
    cases (Session.preludeSource? prelude).2 with
    | none => exact ⟨r₁, hextends, hregister, .ok hroot⟩
    | some source =>
      obtain ⟨r₂, hextends₂, hrun, hsame⟩ := hregister.run hroot traced source
      refine ⟨r₂, hextends.trans hextends₂ ?_, hrun, ?_⟩
      · rw [size_register]
        exact Nat.le_succ _
      · exact hsame.map (hextends₂.place hroot)

end World.Mirrors

end MiniScheme

import MiniScheme.Proofs.Frames.Sharing

/-!
# Collapsed frames

Collapsing a frame lays the tables around it over each other, from the outermost inwards. What
comes of it is a frame of its own that shows what the chain showed at that moment: the same value
for every name, and the names in the order in which they first occur. From then on the two have
nothing to do with each other.

## Main statements

* `Store.collapse_eq_insertAll`: a collapsed chain binds all bindings of the chain in turn.
* `Store.names_collapse`: the names of a collapsed chain, in order.
* `Frames.after_of_closed`: changing bindings reaches only the frames around those that are given.
* `Frames.Founded.collapse_detached`: a collapsed frame and the chain it was made from.
-/

namespace MiniScheme

namespace Store

variable (s : Store) (env : Env)

/-- All bindings of a chain are bound in turn, those of the outermost table first. -/
theorem collapse_eq_insertAll :
    s.collapse env =
      Table.empty.insertAll (env.tables.reverse.flatMap fun id => (s.table id).entries) := by
  obtain ⟨inner, root⟩ := env
  induction inner with
  | nil =>
    apply Table.ext
    simpa [collapse, Env.tables] using (Table.entries_insertAll_empty (s.table root).nodup).symm
  | cons id inner ih =>
    have hbindings : ((⟨id :: inner, root⟩ : Env).tables.reverse.flatMap fun id =>
        (s.table id).entries) = ((⟨inner, root⟩ : Env).tables.reverse.flatMap fun id =>
          (s.table id).entries) ++ (s.table id).entries := by
      simp [Env.tables]
    change (s.collapse ⟨inner, root⟩).merge (s.table id) = _
    rw [Table.merge_eq_insertAll, ih, hbindings]
    apply Table.ext
    simp only [Table.insertAll, Table.insertEntries, List.foldl_append]

/-- A collapsed chain has the names of the chain in the order in which they occur first, from the
outermost table inwards. -/
theorem names_collapse :
    (s.collapse env).names =
      (env.tables.reverse.flatMap fun id => (s.table id).names).eraseDups := by
  rw [collapse_eq_insertAll, Table.names_insertAll_empty, List.map_flatMap]
  rfl

end Store

namespace Frames

variable {fs : Frames} {n : Nat}

/-! ## What changes of bindings reach -/

/-- Changing bindings, starting from some frames with all that is around them, changes no table but
theirs, and makes no frame. -/
theorem after_of_closed {reach : Nat → Prop} {ops : List Operation}
    (hclosed : ∀ m, reach m → ∀ k ∈ fs.lineage m, reach k)
    (hops : ∀ op ∈ ops, op.makes = false ∧ ∀ m ∈ op.given, reach m) :
    (fs.after ops).frames = fs.frames ∧ ∀ id, (∀ m, reach m → id ≠ (fs.frame m).table) →
      (fs.after ops).store.table id = fs.store.table id := by
  induction ops generalizing fs with
  | nil => exact ⟨rfl, fun _ _ => rfl⟩
  | cons op ops ih =>
    obtain ⟨⟨hmakes, hgiven⟩, hops⟩ := List.forall_mem_cons.mp hops
    obtain ⟨m, hm, k, hk, us, hperform⟩ := perform_of_not_makes fs hmakes
    change ((fs.perform op).2.after ops).frames = _ ∧ ∀ id, _ →
      ((fs.perform op).2.after ops).store.table id = _
    rw [hperform]
    have hwritten : ∀ m, reach m → ∀ k' ∈ (fs.write k us).lineage m, reach k' := hclosed
    obtain ⟨hframes, htables⟩ := ih hwritten hops
    refine ⟨hframes, fun id hid => (htables id hid).trans ?_⟩
    exact Store.table_defineAll_of_ne (hid k (hclosed m (hgiven m hm) k hk)) us

/-- Operations that change bindings, each starting from a frame around a given one. -/
def WritesIn (fs : Frames) (n : Nat) (ops : List Operation) : Prop :=
  ∀ op ∈ ops, op.makes = false ∧ ∀ m ∈ op.given, m ∈ fs.lineage n

/-- A frame whose table is none of those of a chain stays as it is when the chain is written to. -/
theorem Founded.after_of_writesIn (h : fs.Founded) (hn : n < fs.frames.size) {ops : List Operation}
    (hops : fs.WritesIn n ops) {m : Nat}
    (hm : ∀ k ∈ fs.lineage n, (fs.frame m).table ≠ (fs.frame k).table) :
    (fs.after ops).frame m = fs.frame m ∧ (fs.after ops).table m = fs.table m := by
  have hclosed : ∀ k ∈ fs.lineage n, ∀ j ∈ fs.lineage k, j ∈ fs.lineage n :=
    fun _ hk _ hj => (h.lineage_suffix hn hk).1.subset hj
  obtain ⟨hframes, htables⟩ := after_of_closed hclosed hops
  have hframe : (fs.after ops).frame m = fs.frame m := by rw [frame, hframes]; rfl
  refine ⟨hframe, ?_⟩
  rw [table, hframe]
  exact htables _ hm

/-! ## Collapsing -/

theorem names_collapse (fs : Frames) (n : Nat) :
    (fs.store.collapse (fs.env n)).names =
      ((fs.lineage n).reverse.flatMap fun m => (fs.table m).names).eraseDups := by
  rw [Store.names_collapse, tables_env, ← List.map_reverse, List.flatMap_map]
  rfl

/-- A frame with a table of its own may be added if its parent is there. -/
theorem Founded.addTable (h : fs.Founded) (t : Table) {p : Option Nat}
    (hp : ∀ m ∈ p, m < fs.frames.size) : (fs.addTable t (fs.around p)).2.Founded :=
  h.add (Store.size_allocate .. ▸ Nat.le_succ _) (Store.size_allocate .. ▸ Nat.lt_succ_self _) hp

/-- A frame that has just been added has its table, and the others have theirs. -/
theorem Founded.table_addTable (h : fs.Founded) (t : Table) (outer : List Nat) :
    (fs.addTable t outer).2.table fs.frames.size = t ∧
      ∀ m < fs.frames.size, (fs.addTable t outer).2.frame m = fs.frame m ∧
        (fs.addTable t outer).2.table m = fs.table m := by
  refine ⟨?_, fun m hm => ?_⟩
  · rw [table, frame_addTable, if_pos rfl]
    exact (Store.table_allocate ..).trans (if_pos rfl)
  · have hframe : (fs.addTable t outer).2.frame m = fs.frame m := by
      rw [frame_addTable, if_neg (Nat.ne_of_lt hm)]
    refine ⟨hframe, ?_⟩
    rw [table, hframe]
    exact Store.table_allocate_of_lt (h.table_lt m hm) t

/-- A frame with nothing around it shows what its own table binds. -/
theorem get?_of_outer_eq_nil {m : Nat} (h : (fs.frame m).outer = []) (x : String) :
    fs.get? m (.symbol x) = (fs.table m).get? x := by
  rw [get?_symbol, lineage, h, List.findSome?_singleton]

theorem get?_collapse (fs : Frames) (n : Nat) (x : String) :
    (fs.store.collapse (fs.env n)).get? x = fs.get? n (.symbol x) :=
  Store.get?_collapse fs.store (fs.env n) x

/-- **Collapsing.** A frame that is collapsed out of a chain of frames, some of which may share a
table, has nothing around it and leaves all other frames as they are.

* It gives every name the value that the chain gives it, or none if the chain has none.
* Its names are those that are bound somewhere in the chain, each once, in the order in which they
  occur first when the frames are read from the outermost one inwards.
* Collapsed again, it has the same bindings in the same order.
* No changes of bindings that start from frames of the chain change its bindings, and none that
  start from it change those of the chain. -/
theorem Founded.collapse_detached (h : fs.Founded) (hn : n < fs.frames.size) :
    let flat := (fs.collapse n).1
    let fs' := (fs.collapse n).2
    (fs'.parent flat = none ∧ fs'.lineage flat = [flat] ∧
      (∀ m < fs.frames.size, fs'.frame m = fs.frame m ∧ fs'.table m = fs.table m) ∧
      ∀ k, fs.ancestor n k = (fs.lineage n)[k]?) ∧
    (∀ name, fs'.get? flat name = fs.get? n name) ∧
    ((fs'.table flat).names.Nodup ∧
      (∀ x, x ∈ (fs'.table flat).names ↔ ∃ m ∈ fs.lineage n, x ∈ (fs.table m).names) ∧
      (fs'.table flat).names =
        ((fs.lineage n).reverse.flatMap fun m => (fs.table m).names).eraseDups) ∧
    (fs'.collapse flat).2.table (fs'.collapse flat).1 = fs'.table flat ∧
    (∀ ops, fs'.WritesIn n ops →
      (fs'.after ops).table flat = fs'.table flat ∧
        ∀ name, (fs'.after ops).get? flat name = fs.get? n name) ∧
    ∀ ops, fs'.WritesIn flat ops → ∀ m ∈ fs.lineage n, (fs'.after ops).table m = fs.table m := by
  intro flat fs'
  have hsize : fs'.frames.size = fs.frames.size + 1 := size_addTable ..
  have hflat : flat < fs'.frames.size := hsize ▸ Nat.lt_succ_self fs.frames.size
  have hfs' : fs'.Founded :=
    h.addTable (p := none) (fs.store.collapse (fs.env n)) nofun
  have hframe : fs'.frame flat = ⟨fs.store.tables.size, []⟩ :=
    (frame_addTable ..).trans (if_pos rfl)
  have hlineage : fs'.lineage flat = [flat] := by rw [lineage, hframe]
  have hadded := h.table_addTable (fs.store.collapse (fs.env n)) []
  have htable : fs'.table flat = fs.store.collapse (fs.env n) := hadded.1
  have hothers : ∀ m < fs.frames.size, fs'.frame m = fs.frame m ∧ fs'.table m = fs.table m :=
    hadded.2
  have hget (name : Value) : fs'.get? flat name = fs.get? n name := by
    cases name with
    | symbol x => rw [get?_of_outer_eq_nil (by rw [hframe]), htable, get?_collapse]
    | _ => rfl
  have hnames := fs.names_collapse n
  -- the chain is where it was, and its tables are other ones than that of the new frame
  have hchain : fs'.lineage n = fs.lineage n := by rw [lineage, (hothers n hn).1]; rfl
  have hapart {m : Nat} (hm : m ∈ fs.lineage n) :
      m < fs.frames.size ∧ (fs'.frame m).table ≠ (fs'.frame flat).table := by
    have hlt := (h.lineage_suffix hn hm).2
    rw [(hothers m hlt).1, hframe]
    exact ⟨hlt, Nat.ne_of_lt (h.table_lt m hlt)⟩
  refine ⟨⟨by rw [parent, hframe]; rfl, hlineage, hothers, fun k => (h.getElem?_lineage hn k).symm⟩,
    hget, ⟨(fs'.table flat).nodup, fun x => ?_, htable ▸ hnames⟩, ?_, fun ops hops => ?_,
    fun ops hops m hm => ?_⟩
  · rw [htable, hnames, List.mem_eraseDups, List.mem_flatMap]
    simp only [List.mem_reverse]
  · have hagain : (fs'.collapse flat).2.table (fs'.collapse flat).1 =
        fs'.store.collapse (fs'.env flat) := (hfs'.table_addTable _ []).1
    rw [hagain, env, hframe, table, hframe]
    rfl
  · have hn' : n < fs'.frames.size := hsize ▸ Nat.lt_succ_of_lt hn
    obtain ⟨hframe', hkept⟩ := hfs'.after_of_writesIn hn' hops (m := flat) fun m hm =>
      ((hapart (hchain ▸ hm)).2).symm
    refine ⟨hkept, fun name => ?_⟩
    rw [← hget]
    cases name with
    | symbol x =>
      rw [get?_of_outer_eq_nil (by rw [hframe', hframe]), hkept,
        get?_of_outer_eq_nil (by rw [hframe])]
    | _ => rfl
  · obtain ⟨hlt, hne⟩ := hapart hm
    rw [← (hothers m hlt).2]
    refine (hfs'.after_of_writesIn hflat hops fun k hk => ?_).2
    rw [hlineage, List.mem_singleton] at hk
    rwa [hk]

/-- A chain of three frames, the innermost and the outermost of which share a table. -/
theorem Founded.collapse_detached_of_shared_table :
    let fs := empty.after [.new none, .define 0 (.symbol "x") (.integer 1), .new (some 0),
      .define 1 (.symbol "y") (.integer 2), .define 1 (.symbol "x") (.integer 3),
      .reparent 0 (some 1)]
    let ops : List Operation := [.set 1 (.symbol "y") (.integer 4),
      .defineGlobal 2 (.symbol "x") (.integer 5)]
    fs.Founded ∧ fs.lineage 2 = [2, 1, 0] ∧ (fs.frame 2).table = (fs.frame 0).table ∧
      ((fs.collapse 2).2.table 3).names = ["x", "y"] ∧ (fs.collapse 2).2.WritesIn 2 ops ∧
      ((fs.collapse 2).2.after ops).get? 3 (.symbol "x") = some (.integer 1) ∧
      ((fs.collapse 2).2.after ops).get? 2 (.symbol "x") = some (.integer 5) := by
  intro fs ops
  have hfounded : fs.Founded := (sound_after (by decide)).toFounded
  obtain ⟨-, -, ⟨-, -, hnames⟩, -, hkept, -⟩ := hfounded.collapse_detached (n := 2) (by decide)
  have hops : (fs.collapse 2).2.WritesIn 2 ops := by unfold WritesIn; decide
  exact ⟨hfounded, by decide, by decide, hnames.trans (by decide), hops,
    ((hkept ops hops).2 _).trans (by decide), by decide⟩

end Frames

end MiniScheme

import MiniScheme.Proofs.Eval.Outcome
import MiniScheme.Proofs.Session.Process
import MiniScheme.Proofs.Text.Decimal

/-!
# The procedures of the core prelude

Wherever a procedure of the core prelude is called, its body takes the names that it does not bind
from the table that the procedure has captured. If the built-ins are there, the procedure computes
what it should.

## Main definitions

* `Prelude.Definition`, `Prelude.definitions`: the definitions of which the core prelude consists.
* `Prelude.Answers`: what the procedures compute.
* `ShowsBuiltins`: the built-ins are visible.

## Main statements

* `Prelude.Definition.quiet`: no body of the core prelude changes anything.
* `Prelude.Answers.gives`: the procedures compute what they should.
-/

namespace MiniScheme

/-! ## Visible built-ins -/

def ShowsBuiltins (installation : Nat) (find : String → Option Value) : Prop :=
  ∀ x v, (builtinTable installation).get? x = some v → find x = some v

namespace ShowsBuiltins

variable {installation : Nat} {find : String → Option Value}

theorem self (installation : Nat) : ShowsBuiltins installation (builtinTable installation).get? :=
  fun _ _ h => h

theorem native (h : ShowsBuiltins installation find) (p : Native) :
    find p.name = some (.native p installation) := by
  apply h
  rw [Table.get?, entries_builtinTable]
  cases p <;> rfl

theorem form (h : ShowsBuiltins installation find) (f : Form) :
    find f.name = some (.form f installation) := by
  apply h
  rw [Table.get?, entries_builtinTable]
  cases f <;> rfl

theorem mem_builtinNames {x : String} {v : Value}
    (h : (builtinTable installation).get? x = some v) : x ∈ builtinNames := by
  have hnames := Table.mem_names_of_get? h
  rwa [Table.names, entries_builtinTable, names_builtins] at hnames

/-- A name that is no built-in can be bound without hiding one. -/
theorem insert {t : Table} {x : String} (h : ShowsBuiltins installation t.get?)
    (hx : x ∉ builtinNames) (v : Value) : ShowsBuiltins installation (t.insert x v).get? := by
  intro y u hget
  have hy : y ≠ x := fun hy => hx (hy ▸ mem_builtinNames hget)
  rw [Table.get?_insert, if_neg hy]
  exact h y u hget

/-- The body of a call sees the built-ins if the captured table has them and no parameter hides
them. -/
theorem openScope {store : Store} {caller : Env} {captured : TableId}
    {bindings : List (String × Value)} (hlt : captured < store.tables.size)
    (h : ShowsBuiltins installation (store.table captured).get?)
    (hbindings : ∀ x ∈ bindings.map Prod.fst, x ∉ builtinNames) :
    ShowsBuiltins installation
      ((store.openScope bindings).get? ((caller.push captured).push store.tables.size)) := by
  intro x v hget
  have hx : x ∉ bindings.map Prod.fst := fun hmem => hbindings x hmem (mem_builtinNames hget)
  rw [Store.get?_push, Store.table_openScope, if_pos rfl, Table.get?_insertAll_of_not_mem hx,
    Table.get?_empty, Option.none_or, Store.get?_push, Store.table_openScope_of_lt hlt, h x v hget]
  rfl

end ShowsBuiltins

namespace Prelude

/-! ## The definitions -/

structure Definition where
  name : String
  parameters : List String
  body : Value

namespace Definition

def formals (d : Definition) : Value := .chain (d.parameters.map .symbol) .nil

def operands (d : Definition) : Value :=
  .chain [.symbol d.name, .pair (.symbol "lambda") (.pair d.formals (.chain [d.body] .nil))] .nil

def form (d : Definition) : Value := .pair (.symbol "define") d.operands

end Definition

def callNative (p : Native) (es : List Value) : Value := .pair (.symbol p.name) (.chain es .nil)

def branch (e consequent alternative : Value) : Value :=
  .pair (.symbol Form.branch.name) (.chain [e, consequent, alternative] .nil)

def negated (name : String) (p : Native) : Definition :=
  ⟨name, ["a", "b"], callNative .not [callNative p [.symbol "a", .symbol "b"]]⟩

/-- Chooses the first of two arguments if a comparison says so, and the second otherwise. -/
def chosen (name : String) (p : Native) : Definition :=
  ⟨name, ["a", "b"], branch (callNative p [.symbol "a", .symbol "b"]) (.symbol "a") (.symbol "b")⟩

def isZero : Definition := ⟨"zero?", ["n"], callNative .equal [.symbol "n", .integer 0]⟩

def absolute : Definition :=
  ⟨"abs", ["n"], branch (callNative .less [.symbol "n", .integer 0])
    (callNative .subtract [.integer 0, .symbol "n"]) (.symbol "n")⟩

def second : Definition := ⟨"cadr", ["lst"], callNative .car [callNative .cdr [.symbol "lst"]]⟩

def definitions : List Definition :=
  [negated ">=" .less, negated "<=" .greater, isZero, absolute, chosen "max" .greater,
    chosen "min" .less, second]

/-- A text can be read if its characters can. -/
theorem readAll_of_toList {source : String} {cs : List Char} {limit : Nat} {es : List Value}
    (hcs : source.toList = cs)
    (h : (Token.ofLines 1 (Text.lines cs)).toOption.map (fun tokens =>
      let reading := (Cursor.ofTokens tokens).readAll limit
      (reading.error, reading.forms)) = some (none, es)) :
    Source.readAll limit source = .ok es := by
  subst hcs
  cases htokens : Token.ofLines 1 (Text.lines source.toList) with
  | error e =>
    rw [htokens] at h
    cases h
  | ok tokens =>
    rw [htokens] at h
    refine Source.readAll_eq_ok_iff.mpr ⟨tokens, ?_, Prod.mk.inj (Option.some.inj h)⟩
    rw [Source.tokens, Token.ofSource, htokens]
    rfl

/-- The core prelude consists of its definitions. -/
theorem readAll_core {limit : Nat} (hle : 1000 ≤ limit) :
    Source.readAll limit core = .ok (definitions.map Definition.form) := by
  refine Source.readAll_of_le hle ?_
  delta core
  -- the characters of a long text are found much faster piece by piece
  refine readAll_of_toList (String.toList_append ..) ?_
  iterate 6 rw [String.toList_append]
  decide +kernel

/-- No definition takes the name of a built-in, and no parameter hides one. -/
theorem names_of_mem_definitions {d : Definition} (h : d ∈ definitions) :
    d.name ∉ builtinNames ∧ ∀ x ∈ d.parameters, x ∉ builtinNames := by
  revert d
  decide

theorem nodup_definitions : (definitions.map Definition.name).Nodup := by decide

/-! ## Bodies that change nothing -/

theorem parameterNames_formals (d : Definition) : d.formals.parameterNames = d.parameters := by
  obtain ⟨name, parameters, body⟩ := d
  change (Value.chain (parameters.map .symbol) .nil).parameterNames = parameters
  induction parameters with
  | nil => rfl
  | cons x xs ih => simp [Value.parameterNames, ih]

/-- No body of the core prelude changes anything. -/
theorem Definition.quiet {d : Definition} (hd : d ∈ definitions) {installation : Nat}
    {table : Table} (h : ShowsBuiltins installation table.get?) :
    Quiet table d.parameters d.body := by
  have hbound := (names_of_mem_definitions hd).2
  obtain ⟨name, bound, body⟩ := d
  dsimp only at hbound ⊢
  have hsymbol (x : String) : Quiet table bound (.symbol x) := .symbol x
  have hinteger (n : Int) : Quiet table bound (.integer n) := .integer n
  have hnative (p : Native) (hp : p ≠ .apply) (es : List Value)
      (hes : ∀ e ∈ es, Quiet table bound e) : Quiet table bound (callNative p es) := by
    have hname : p.name ∈ builtinNames :=
      ShowsBuiltins.mem_builtinNames ((ShowsBuiltins.self installation).native p)
    refine .native (fun hmem => hbound _ hmem hname) (h.native p) hp ?_ hes
    rw [Value.properItems, Value.items_chain_nil]
    rfl
  have hbranch (e u v : Value) (he : Quiet table bound e) (hu : Quiet table bound u)
      (hv : Quiet table bound v) : Quiet table bound (branch e u v) := by
    have hes : ∀ e' ∈ [e, u, v], Quiet table bound e' := by simp [he, hu, hv]
    exact .branch (fun hmem => hbound _ hmem (by decide)) (h.form .branch) rfl hes
  simp only [definitions, negated, chosen, isZero, absolute, second, List.mem_cons,
    List.not_mem_nil, or_false, Definition.mk.injEq] at hd
  rcases hd with ⟨-, rfl, rfl⟩ | ⟨-, rfl, rfl⟩ | ⟨-, rfl, rfl⟩ | ⟨-, rfl, rfl⟩ | ⟨-, rfl, rfl⟩ |
    ⟨-, rfl, rfl⟩ | ⟨-, rfl, rfl⟩
  all_goals simp [hnative, hbranch, hsymbol, hinteger]

/-! ## What the procedures compute -/

/-- What the procedures of the core prelude answer to which operands. -/
inductive Answers : (name : String) → (operands : List Value) → (answer : Value) → Prop where
  | atLeast (a b : Int) : Answers ">=" [.integer a, .integer b] (.boolean (a ≥ b))
  | atMost (a b : Int) : Answers "<=" [.integer a, .integer b] (.boolean (a ≤ b))
  | isZero (n : Int) : Answers "zero?" [.integer n] (.boolean (n = 0))
  | abs (n : Int) : Answers "abs" [.integer n] (.integer n.natAbs)
  | max (a b : Int) : Answers "max" [.integer a, .integer b] (.integer (Max.max a b))
  | min (a b : Int) : Answers "min" [.integer a, .integer b] (.integer (Min.min a b))
  | cadr (u v rest : Value) : Answers "cadr" [.quoted (.pair u (.pair v rest))] v

section Bodies

variable {installation : Nat} {store : Store} {env : Env} {traced : Bool} {depth : Nat}
  {p : Native} {name x : String} {a b : Int} {answer : Bool}

/-- A comparison of two arguments. -/
theorem gives_comparison (h : ShowsBuiltins installation (store.get? env)) (hp : p ≠ .apply)
    (ha : store.get? env "a" = some (.integer a)) (hb : store.get? env "b" = some (.integer b))
    (hanswer : ∀ depth, p.compute depth [.integer a, .integer b] = .ok (.boolean answer)) :
    Gives (eval traced (depth + 3) env (callNative p [.symbol "a", .symbol "b"]) .nil) store
      (.boolean answer) store :=
  .native (h.native p) hp (fun _ => rfl) (.cons (.symbol ha) (.cons (.symbol hb) .nil))
    (hanswer (depth + 1))

theorem gives_negated (h : ShowsBuiltins installation (store.get? env)) (hp : p ≠ .apply)
    (ha : store.get? env "a" = some (.integer a)) (hb : store.get? env "b" = some (.integer b))
    (hanswer : ∀ depth, p.compute depth [.integer a, .integer b] = .ok (.boolean answer)) :
    Gives (eval traced (depth + 5) env (negated name p).body .nil) store (.boolean !answer)
      store := by
  refine .native (h.native .not) (by decide) (fun _ => rfl)
    (.cons (gives_comparison h hp ha hb hanswer) .nil) ?_
  cases answer <;> rfl

theorem gives_chosen (h : ShowsBuiltins installation (store.get? env)) (hp : p ≠ .apply)
    (ha : store.get? env "a" = some (.integer a)) (hb : store.get? env "b" = some (.integer b))
    (hanswer : ∀ depth, p.compute depth [.integer a, .integer b] = .ok (.boolean answer)) :
    Gives (eval traced (depth + 5) env (chosen name p).body .nil) store
      (.integer (if answer then a else b)) store := by
  refine .branch (h.form .branch) (fun _ => rfl) (gives_comparison h hp ha hb hanswer) ?_
  cases answer
  · exact .symbol hb
  · exact .symbol ha

theorem isWritable_zero : Text.isWritable 0 = true :=
  (Text.isWritable_iff 0).mpr (Nat.pow_pos (by decide))

theorem gives_isZero (h : ShowsBuiltins installation (store.get? env))
    (ha : store.get? env "n" = some (.integer a)) :
    Gives (eval traced (depth + 5) env isZero.body .nil) store (.boolean (a = 0)) store := by
  refine .native (h.native .equal) (by decide) ?_ (.cons (.symbol ha) (.cons (.integer 0) .nil)) ?_
  · simp [Event.obstacle?, Event.values, Value.obstacle?, isWritable_zero]
  · simp [Native.compute, Value.equal?]

theorem gives_absolute (h : ShowsBuiltins installation (store.get? env))
    (ha : store.get? env "n" = some (.integer a)) :
    Gives (eval traced (depth + 5) env absolute.body .nil) store (.integer a.natAbs) store := by
  have hless : Gives (eval traced (depth + 3) env (callNative .less [.symbol "n", .integer 0]) .nil)
      store (.boolean (a < 0)) store := by
    refine .native (h.native .less) (by decide) ?_
      (.cons (.symbol ha) (.cons (.integer 0) .nil)) rfl
    simp [Event.obstacle?, Event.values, Value.obstacle?, isWritable_zero]
  have hminus : Gives (eval traced (depth + 3) env (callNative .subtract [.integer 0, .symbol "n"])
      .nil) store (.integer (0 - a)) store := by
    refine .native (h.native .subtract) (by decide) ?_
      (.cons (.integer 0) (.cons (.symbol ha) .nil)) rfl
    simp [Event.obstacle?, Event.values, Value.obstacle?, isWritable_zero]
  refine .branch (h.form .branch) ?_ hless ?_
  · simp [Event.obstacle?, Event.values, Value.obstacle?, callNative, isWritable_zero]
  · by_cases hneg : a < 0
    · have hnegated : ((a.natAbs : Nat) : Int) = 0 - a := by omega
      rw [hnegated, if_pos (by simpa using hneg)]
      exact hminus
    · have hsame : ((a.natAbs : Nat) : Int) = a := by omega
      rw [hsame, if_neg (by simpa using hneg)]
      exact .symbol ha

theorem gives_second (h : ShowsBuiltins installation (store.get? env)) {u v rest : Value}
    (hlist : store.get? env "lst" = some (.pair u (.pair v rest))) :
    Gives (eval traced (depth + 5) env second.body .nil) store v store := by
  have hrest : Gives (eval traced (depth + 3) env (callNative .cdr [.symbol "lst"]) .nil) store
      (.pair v rest) store :=
    .native (h.native .cdr) (by decide) (fun _ => rfl) (.cons (.symbol hlist) .nil) rfl
  exact .native (h.native .car) (by decide) (fun _ => rfl) (.cons hrest .nil) rfl

end Bodies

/-! ## Calls -/

section Calls

variable {installation : Nat} {store : Store} {caller : Env} {captured : TableId} {traced : Bool}
  {depth : Nat} {es vs : List Value} {v : Value}

/-- A call computes what the body does wherever the parameters mean the arguments and all other
names of the body mean built-ins. It changes no table that is there already. -/
theorem Definition.gives_call {d : Definition} (hd : d ∈ definitions)
    (hes : List.Forall₂ (fun e v => ∀ store, Gives (eval traced (depth + 5) caller e .nil) store v
      store) es vs) (hlength : d.parameters.length = es.length)
    (hwords : traced = true → ∀ v ∈ vs, v.obstacle? (depth + 5) = none)
    (hlt : captured < store.tables.size)
    (h : ShowsBuiltins installation (store.table captured).get?)
    (hbody : ∀ store env, ShowsBuiltins installation (store.get? env) →
      (∀ x u, (Table.empty.insertAll (d.parameters.zip vs)).get? x = some u →
        store.get? env x = some u) →
      Gives (eval traced (depth + 5) env d.body .nil) store v store) :
    ∃ store', Gives (eval traced (depth + 6) caller
        (.closure d.formals (.chain [d.body] .nil) captured) (.chain es .nil)) store v store' ∧
      ∀ id < store.tables.size, store'.table id = store.table id := by
  have hnames : ∀ x ∈ (d.parameters.zip vs).map Prod.fst, x ∉ builtinNames := by
    intro x hx
    obtain ⟨⟨_, u⟩, hmem, rfl⟩ := List.mem_map.mp hx
    exact (names_of_mem_definitions hd).2 _ (List.of_mem_zip hmem).1
  have hlocal : ∀ x u, (Table.empty.insertAll (d.parameters.zip vs)).get? x = some u →
      (store.openScope (d.parameters.zip vs)).get?
        ((caller.push captured).push store.tables.size) x = some u := by
    intro x u hget
    rw [Store.get?_push, Store.table_openScope, if_pos rfl, hget]
    rfl
  have hcall : Gives (Closure.run (.ofDepth traced (depth + 5)) caller d.formals
      (.chain [d.body] .nil) captured (.chain es .nil)) store v
      (store.openScope (d.parameters.zip vs)) :=
    .call hes hlength hwords (hbody _ _ (h.openScope hlt hnames) hlocal)
  exact ⟨_, hcall, fun id hid => Store.table_openScope_of_lt hid _⟩

theorem Definition.gives_call_integers {d : Definition} (hd : d ∈ definitions) (ns : List Int)
    (hlength : d.parameters.length = ns.length)
    (hwords : traced = true → ∀ e ∈ ns.map Value.integer, e.obstacle? (depth + 6) = none)
    (hlt : captured < store.tables.size)
    (h : ShowsBuiltins installation (store.table captured).get?)
    (hbody : ∀ store env, ShowsBuiltins installation (store.get? env) →
      (∀ x u, (Table.empty.insertAll (d.parameters.zip (ns.map Value.integer))).get? x = some u →
        store.get? env x = some u) →
      Gives (eval traced (depth + 5) env d.body .nil) store v store) :
    ∃ store', Gives (eval traced (depth + 6) caller
        (.closure d.formals (.chain [d.body] .nil) captured) (.chain (ns.map .integer) .nil)) store
        v store' ∧ ∀ id < store.tables.size, store'.table id = store.table id := by
  have hes : List.Forall₂ (fun e v => ∀ store, Gives (eval traced (depth + 5) caller e .nil) store v
      store) (ns.map Value.integer) (ns.map Value.integer) := by
    refine List.forall₂_same.mpr fun e he store => ?_
    obtain ⟨n, -, rfl⟩ := List.mem_map.mp he
    exact .integer n
  refine gives_call hd hes (by simpa using hlength) (fun htraced u hu => ?_) hlt h hbody
  have hwritable := hwords htraced u hu
  obtain ⟨n, -, rfl⟩ := List.mem_map.mp hu
  simpa only [Value.obstacle?] using hwritable

/-- The procedures of the core prelude compute what they should, wherever they are called. -/
theorem Answers.gives {name : String} (hanswers : Answers name es v) :
    ∃ d ∈ definitions, d.name = name ∧
      ∀ {installation : Nat} {store : Store} {caller : Env} {captured : TableId} {traced : Bool}
        {depth : Nat}, captured < store.tables.size →
        ShowsBuiltins installation (store.table captured).get? →
        (traced = true → ∀ e ∈ es, e.obstacle? (depth + 6) = none) →
        ∃ store', Gives (eval traced (depth + 6) caller
            (.closure d.formals (.chain [d.body] .nil) captured) (.chain es .nil)) store v store' ∧
          ∀ id < store.tables.size, store'.table id = store.table id := by
  cases hanswers with
  | atLeast a b =>
    have hd : negated ">=" .less ∈ definitions := by simp [definitions]
    have hanswer : decide (a ≥ b) = !decide (a < b) := by
      rw [Bool.eq_iff_iff]
      simp
    rw [hanswer]
    refine ⟨_, hd, rfl, fun hlt h hwords => ?_⟩
    exact Definition.gives_call_integers hd [a, b] rfl hwords hlt h fun _ _ h hlocal =>
      gives_negated h (by decide) (hlocal "a" _ rfl) (hlocal "b" _ rfl) fun _ => rfl
  | atMost a b =>
    have hd : negated "<=" .greater ∈ definitions := by simp [definitions]
    have hanswer : decide (a ≤ b) = !decide (a > b) := by
      rw [Bool.eq_iff_iff]
      simp
    rw [hanswer]
    refine ⟨_, hd, rfl, fun hlt h hwords => ?_⟩
    exact Definition.gives_call_integers hd [a, b] rfl hwords hlt h fun _ _ h hlocal =>
      gives_negated h (by decide) (hlocal "a" _ rfl) (hlocal "b" _ rfl) fun _ => rfl
  | isZero n =>
    have hd : Prelude.isZero ∈ definitions := by simp [definitions]
    refine ⟨_, hd, rfl, fun hlt h hwords => ?_⟩
    exact Definition.gives_call_integers hd [n] rfl hwords hlt h
      fun _ _ h hlocal => gives_isZero h (hlocal "n" _ rfl)
  | abs n =>
    have hd : absolute ∈ definitions := by simp [definitions]
    refine ⟨_, hd, rfl, fun hlt h hwords => ?_⟩
    exact Definition.gives_call_integers hd [n] rfl hwords hlt h
      fun _ _ h hlocal => gives_absolute h (hlocal "n" _ rfl)
  | max a b =>
    have hd : chosen "max" .greater ∈ definitions := by simp [definitions]
    have hanswer : Max.max a b = if decide (a > b) then a else b := by
      simp only [decide_eq_true_eq]
      omega
    rw [hanswer]
    refine ⟨_, hd, rfl, fun hlt h hwords => ?_⟩
    exact Definition.gives_call_integers hd [a, b] rfl hwords hlt h fun _ _ h hlocal =>
      gives_chosen h (by decide) (hlocal "a" _ rfl) (hlocal "b" _ rfl) fun _ => rfl
  | min a b =>
    have hd : chosen "min" .less ∈ definitions := by simp [definitions]
    have hanswer : Min.min a b = if decide (a < b) then a else b := by
      simp only [decide_eq_true_eq]
      omega
    rw [hanswer]
    refine ⟨_, hd, rfl, fun hlt h hwords => ?_⟩
    exact Definition.gives_call_integers hd [a, b] rfl hwords hlt h fun _ _ h hlocal =>
      gives_chosen h (by decide) (hlocal "a" _ rfl) (hlocal "b" _ rfl) fun _ => rfl
  | cadr u v rest =>
    have hd : second ∈ definitions := by simp [definitions]
    refine ⟨_, hd, rfl, fun {_ _ _ _ _ depth} hlt h hwords => ?_⟩
    refine Definition.gives_call hd (.cons (fun _ => .quoted _) .nil) rfl ?_ hlt h
      fun _ _ h hlocal => gives_second h (hlocal "lst" _ rfl)
    intro htraced
    -- the argument is written one level further down than the quoted operand
    have hquoted : (Value.quoted (.pair u (.pair v rest))).obstacle? (depth + 6) = none :=
      hwords htraced _ List.mem_cons_self
    exact List.forall_mem_singleton.mpr hquoted

end Calls

end Prelude

end MiniScheme

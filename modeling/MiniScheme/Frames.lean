import MiniScheme.Builtins
import MiniScheme.Eval

/-!
# Frames

A frame is a table together with the frames around it. Frames are made one by one and numbered in
that order; a frame can be given other frames around it while it goes on sharing its table.

## Main definitions

* `Frames`: the frames made so far.
* `Frames.new`, `Frames.copy`, `Frames.collapse`, `Frames.reparent`: making a frame.
* `Frames.define`, `Frames.defineGlobal`, `Frames.set`, `Frames.update`: changing bindings.
-/

namespace MiniScheme

/-- A frame: the place of its table, and the numbers of the frames around it, nearest first. -/
structure Frame where
  table : TableId
  outer : List Nat
  deriving DecidableEq, Repr

instance : Inhabited Frame := ⟨⟨0, []⟩⟩

/-- The frames made so far, and their tables. -/
structure Frames where
  store : Store
  frames : Array Frame

namespace Frames

def empty : Frames := ⟨.empty, #[]⟩

variable (fs : Frames)

def frame (n : Nat) : Frame := fs.frames[n]?.getD default

/-- The numbers of a frame and of the frames around it, nearest first. -/
def lineage (n : Nat) : List Nat := n :: (fs.frame n).outer

def env (n : Nat) : Env :=
  Env.ofTables (fs.frame n).table ((fs.frame n).outer.map fun m => (fs.frame m).table)

def table (n : Nat) : Table := fs.store.table (fs.frame n).table

/-! ## Making frames -/

def add (f : Frame) : Nat × Frames := (fs.frames.size, { fs with frames := fs.frames.push f })

def addTable (t : Table) (outer : List Nat) : Nat × Frames :=
  let (id, store) := fs.store.allocate t
  { fs with store }.add ⟨id, outer⟩

/-- The lineage that a frame inside another one has around it. -/
def around : Option Nat → List Nat
  | none => []
  | some n => fs.lineage n

def new (outer : Option Nat) : Nat × Frames := fs.addTable .empty (fs.around outer)

/-- A frame with a copy of the bindings of another and the same frames around it. -/
def copy (n : Nat) : Nat × Frames := fs.addTable (fs.table n) (fs.frame n).outer

/-- A frame with everything that is visible in another and nothing around it. -/
def collapse (n : Nat) : Nat × Frames := fs.addTable (fs.store.collapse (fs.env n)) []

/-- A frame that shares the table of another and has other frames around it. -/
def reparent (n : Nat) (outer : Option Nat) : Nat × Frames :=
  fs.add ⟨(fs.frame n).table, fs.around outer⟩

/-! ## Looking names up -/

def root (n : Nat) : Nat := (fs.frame n).outer.getLast?.getD n

/-- The number of the nearest frame that binds a name. Only symbols are ever bound. -/
def find? (n : Nat) : Value → Option Nat
  | .symbol x => (fs.lineage n).find? fun m => (fs.table m).contains x
  | _ => none

def get? (n : Nat) : Value → Option Value
  | .symbol x => fs.store.get? (fs.env n) x
  | _ => none

def lookup (n : Nat) (name : Value) : Except Fault Value :=
  match fs.get? n name with
  | some v => .ok v
  | none => .error (.lookupUnbound name)

def containsLocal (n : Nat) : Value → Bool
  | .symbol x => (fs.table n).contains x
  | _ => false

/-! ## Changing bindings -/

def define (n : Nat) (name v : Value) : Except Fault Frames :=
  match name with
  | .symbol x => .ok { fs with store := fs.store.define (fs.frame n).table x v }
  | other => .error (.bindNonSymbol other)

def defineGlobal (n : Nat) (name v : Value) : Except Fault Frames := fs.define (fs.root n) name v

def set (n : Nat) (name v : Value) : Except Fault Frames :=
  match name with
  | .symbol x =>
    match fs.store.set? (fs.env n) x v with
    | some store => .ok { fs with store }
    | none => .error (.setUnbound x)
  | other => .error (.setNonSymbol other)

/-- Puts a pair of a name and a value into a list of such pairs; a name that is there already keeps
its position. -/
def gather (name v : Value) : List (Value × Value) → List (Value × Value)
  | [] => [(name, v)]
  | (other, w) :: rest =>
    if other = name then (other, v) :: rest else (other, w) :: gather name v rest

/-- Binds names in turn, up to the first that is not a symbol. -/
def defineAll (n : Nat) : List (Value × Value) → Frames → Option Fault × Frames
  | [], fs => (none, fs)
  | (name, v) :: rest, fs =>
    match fs.define n name v with
    | .ok fs => defineAll n rest fs
    | .error f => (some f, fs)

/-- Binds several names in a frame. Of a name that is given more than once, the first position and
the last value count. -/
def update (n : Nat) (pairs : List (Value × Value)) : Option Fault × Frames :=
  defineAll n (pairs.foldl (fun gathered p => gather p.1 p.2 gathered) []) fs

def install (n : Nat) : Frames := { fs with store := fs.store.install (fs.frame n).table }

/-! ## Evaluating -/

def runEval {α : Type} (c : EvalM α) : Except Fault α × Frames :=
  match c ⟨fs.store, []⟩ with
  | .ok a s => (.ok a, { fs with store := s.store })
  | .error f s => (.error f, { fs with store := s.store })

def evaluate (limit n : Nat) (e : Value) : Except Fault Value × Frames :=
  fs.runEval ((Level.ofDepth false limit).evaluate (fs.env n) e)

def run (limit n : Nat) (v operands : Value) : Except Fault Value × Frames :=
  fs.runEval ((Level.ofDepth false limit).run (fs.env n) v operands)

def bind (limit caller target : Nat) (formals operands : Value) : Except Fault Unit × Frames :=
  fs.runEval (Closure.bind (Level.ofDepth false limit) (fs.env caller) (fs.frame target).table
    formals operands)

/-! ## Text -/

/-- The bindings of a frame, with a mark if there are frames around it. -/
def text (limit n : Nat) : Except Value.WriteError String :=
  match (fs.table n).obstacle? limit with
  | none => .ok ((fs.table n).write ++ if (fs.frame n).outer.isEmpty then "" else " -> ...")
  | some e => .error e

/-- The bindings of a frame and of all frames around it. -/
def inspect (limit n : Nat) : Except Value.WriteError String :=
  let tables := (fs.lineage n).map fs.table
  match tables.findSome? (Table.obstacle? limit) with
  | none => .ok ("<Environment chain: " ++ " -> ".intercalate (tables.map Table.write) ++ ">")
  | some e => .error e

end Frames

end MiniScheme

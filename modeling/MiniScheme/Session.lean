import MiniScheme.Builtins
import MiniScheme.Eval
import MiniScheme.Prelude
import MiniScheme.Reader.Source
import MiniScheme.Settings

/-!
# Sessions

A session is a root table in which programs are run one after the other. All sessions of a world
share its store and its limit on nesting, which a session may raise when it is opened.

A program is cut into tokens as a whole before anything else happens. Its expressions are then read
and evaluated in turn, so what stands before a mistake has taken effect.

## Main definitions

* `World`, `Session`: what sessions share, and a session.
* `Session.run`: runs a program.
* `Session.start`: opens a session and runs its prelude.
-/

namespace MiniScheme

structure World where
  store : Store
  limit : Nat

def World.initial : World := ⟨.empty, 1000⟩

/-- The largest limit that a world can have: it fits into a signed word of 32 bits. -/
def World.largestLimit : Nat := 2147483647

/-- A session, given by the place of its root table. -/
structure Session where
  root : TableId
  deriving DecidableEq, Repr

/-- Why a program has no answer, or a session cannot be opened. -/
inductive RunError where
  | source (e : SourceError)
  | evaluation (f : Fault)
  | limit (e : Settings.InvalidLimit)
  /-- The setting asks for more than the largest limit. -/
  | limitTooLarge
  /-- Reading or evaluation is nested more deeply than the limit allows. -/
  | tooDeep
  deriving DecidableEq, Repr

namespace RunError

def ofReadError : ReadError → RunError
  | .tooDeep => .tooDeep
  | e => .source (.unreadable e)

def ofFault : Fault → RunError
  | .tooDeep => .tooDeep
  | f => .evaluation f

/-- The wording of an error. An integer of too many digits and a limit that is too large have
none. -/
def message? : RunError → Option String
  | source e => e.message?
  | evaluation f => f.message?
  | limit e => some e.message
  | limitTooLarge => none
  | tooDeep => some "Maximum recursion depth exceeded during evaluation"

end RunError

/-- An answer or an error, with the events up to it and the world after it. -/
structure Outcome (α : Type) where
  answer : Except RunError α
  events : List Event
  world : World

namespace Session

def env (session : Session) : Env := ⟨[], session.root⟩

def evaluateForms (level : Level) (env : Env) (last : Value) : List Value → EvalM Value
  | [] => pure last
  | e :: es => do
    level.report (.read e)
    let v ← level.evaluate env e
    level.report (.evaluated v)
    evaluateForms level env v es

/-- Runs a program. Its answer is the value of its last expression. -/
def run (session : Session) (traced : Bool) (source : String) (world : World) : Outcome Value :=
  match Source.tokens source with
  | .error e => ⟨.error (.source e), [], world⟩
  | .ok tokens =>
    let reading := (Cursor.ofTokens tokens).readAll world.limit
    let level := Level.ofDepth traced world.limit
    match evaluateForms level session.env .nil reading.forms ⟨world.store, []⟩ with
    | .ok v s =>
      let answer := match reading.error with
        | none => .ok v
        | some e => .error (.ofReadError e)
      ⟨answer, s.events.reverse, { world with store := s.store }⟩
    | .error f s =>
      ⟨.error (.ofFault f), s.events.reverse, { world with store := s.store }⟩

def register (world : World) : Session × World :=
  let (root, store) := world.store.allocate .empty
  (⟨root⟩, { world with store := store.install root })

/-- Raises the limit of a world, which is announced first. A limit that is high enough stays as it
is. -/
def raiseLimit (limit : Option Nat) (world : World) : List Event × Except RunError World :=
  match limit with
  | none => ([], .ok world)
  | some new =>
    if world.limit < new then
      ([.raisingLimit world.limit new],
        if new ≤ World.largestLimit then .ok { world with limit := new } else .error .limitTooLarge)
    else ([], .ok world)

/-- What a prelude announces, and the program that it gives. -/
def preludeSource? : Prelude → List Event × Option String
  | .absent => ([], none)
  | .text source => ([], some source)
  | .file path (some source) => ([.loadingPrelude path], some source)
  | .file path none => ([.noPrelude path], none)

/-- Opens a session: installs the built-ins, raises the limit to what the setting asks for, and
runs the prelude. -/
def start (prelude : Prelude) (limitSetting : String) (traced : Bool) (world : World) :
    Outcome Session :=
  let (session, world) := register world
  match Settings.limit? limitSetting with
  | .error e => ⟨.error (.limit e), [], world⟩
  | .ok limit =>
    match raiseLimit limit world with
    | (raised, .error e) => ⟨.error e, if traced then raised else [], world⟩
    | (raised, .ok world) =>
      let (announced, source) := preludeSource? prelude
      let before := if traced then raised ++ announced else []
      match source with
      | none => ⟨.ok session, before, world⟩
      | some source =>
        let outcome := session.run traced source world
        ⟨outcome.answer.map fun _ => session, before ++ outcome.events, outcome.world⟩

end Session

end MiniScheme

import MiniScheme.Text.Blank
import MiniScheme.Text.Integer
import MiniScheme.Text.Quoted

/-!
# Settings

Two settings are given as text: where the prelude is, and how deep evaluation may nest. Blanks
around them are ignored, and an empty text leaves a setting alone.

## Main definitions

* `Settings.preludePath?`: the path of the prelude, in normal form.
* `Settings.limit?`: the limit on nesting.
-/

namespace MiniScheme.Settings

/-! ## The path of the prelude -/

def components : List Char → List (List Char)
  | [] => [[]]
  | '/' :: cs => [] :: components cs
  | c :: cs =>
    match components cs with
    | [] => [[c]]
    | part :: parts => (c :: part) :: parts

/-- What stands before the parts of a path: one slash for an absolute path, but two for one that
starts with exactly two. -/
def root : List Char → List Char
  | '/' :: '/' :: '/' :: _ => ['/']
  | '/' :: '/' :: _ => ['/', '/']
  | '/' :: _ => ['/']
  | _ => []

/-- The normal form of a path: empty parts and parts that are a single dot are dropped. A path of
which nothing is left is a dot. -/
def normalizePath (path : List Char) : List Char :=
  let parts := (components path).filter fun part => part ≠ [] && part ≠ ['.']
  let normal := root path ++ ['/'].intercalate parts
  if normal.isEmpty then ['.'] else normal

def preludePath? (setting : String) : Option String :=
  let path := Text.trim setting.toList
  if path.isEmpty then none else some (String.ofList (normalizePath path))

/-! ## The limit on nesting -/

structure InvalidLimit where
  setting : String
  deriving DecidableEq, Repr

def InvalidLimit.message (e : InvalidLimit) : String :=
  "CADR_RECURSION_LIMIT must be an integer, got " ++ Text.quoted e.setting

/-- The limit on nesting, if the setting is not blank and positive. -/
def limit? (setting : String) : Except InvalidLimit (Option Nat) :=
  let text := Text.trim setting.toList
  if text.isEmpty then .ok none
  else match Text.toGroupedInteger? text with
    | some n => .ok (if 0 < n then some n.toNat else none)
    | none => .error ⟨String.ofList text⟩

end MiniScheme.Settings

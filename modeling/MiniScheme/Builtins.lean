import MiniScheme.Store

/-!
# Built-in bindings

The names that a root table binds before any program runs: the special forms, the natives, the else
marker and the empty list.
-/

namespace MiniScheme

/-- The built-in bindings of one installation, in the order in which they are made. -/
def builtins (installation : Nat) : List (String × Value) :=
  Form.all.map (fun f => (f.name, .form f installation)) ++
    Native.all.map (fun p => (p.name, .native p installation)) ++
    [("else", .elseMarker), ("null", .nil)]

def builtinNames : List String := (builtins 0).map Prod.fst

theorem names_builtins (installation : Nat) :
    (builtins installation).map Prod.fst = builtinNames := rfl

theorem builtinNames_nodup : builtinNames.Nodup := by decide

def Store.install (s : Store) (id : TableId) : Store where
  tables := s.tables.modify id (·.insertAll (builtins s.installations))
  installations := s.installations + 1

end MiniScheme

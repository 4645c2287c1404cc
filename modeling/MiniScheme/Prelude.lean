/-!
# Preludes

A prelude is a program that a session runs before any other.
-/

namespace MiniScheme

/-- Where a session takes its prelude from. A file that is missing has no contents. -/
inductive Prelude where
  | absent
  | text (source : String)
  | file (path : String) (contents : Option String)
  deriving DecidableEq, Repr

/-- The prelude that comes with the library: procedures that the language itself can express. -/
def Prelude.core : String :=
  "; Procedures that can be written in the language itself.\n\n" ++
  "(define >= (lambda (a b) (not (< a b))))\n" ++
  "(define <= (lambda (a b) (not (> a b))))\n" ++
  "(define zero? (lambda (n) (= n 0)))\n" ++
  "(define abs (lambda (n) (if (< n 0) (- 0 n) n)))\n" ++
  "(define max (lambda (a b) (if (> a b) a b)))\n" ++
  "(define min (lambda (a b) (if (< a b) a b)))\n" ++
  "(define cadr (lambda (lst) (car (cdr lst))))\n"

end MiniScheme

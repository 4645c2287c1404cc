import MiniScheme.Proofs.Eval.Correspondence
import MiniScheme.Proofs.Eval.Moments

/-!
# Programs and their answers

A run evaluates the expressions of its program up to the first mistake in the text. If that goes
well, the mistake is the outcome, if there is one, and otherwise the value of the last expression.

The expressions of a program name no places and no installations, so programs go the same way in
corresponding states.

## Main definitions

* `Session.mistake?`: what is wrong with the text of a program.
* `Session.reply`: the answer to a program, from what its expressions evaluate to.

## Main statements

* `Session.run_eq`: a run by its parts.
* `Correspondence.ends_program`: a program in corresponding states.
-/

namespace MiniScheme

namespace Session

def mistake? (limit : Nat) (source : String) : Option RunError :=
  match Source.tokens source with
  | .error e => some (.source e)
  | .ok tokens => ((Cursor.ofTokens tokens).readAll limit).error.map .ofReadError

/-- The answer to a program. A fault comes before the mistake in the text that it kept from being
reached. -/
def reply (mistake : Option RunError) : Except Fault Value → Except RunError Value
  | .error f => .error (.ofFault f)
  | .ok v =>
    match mistake with
    | none => .ok v
    | some e => .error e

def evaluated (session : Session) (traced : Bool) (source : String) (limit : Nat) : EvalM Value :=
  evaluateForms (.ofDepth traced limit) session.env .nil (forms limit source)

theorem run_eq (session : Session) (traced : Bool) (source : String) (world : World) :
    let outcome := session.evaluated traced source world.limit ⟨world.store, []⟩
    session.run traced source world =
      { answer := reply (mistake? world.limit source) (finalAnswer outcome)
        events := (finalState outcome).events.reverse
        world := { world with store := (finalState outcome).store } } := by
  unfold run evaluated forms mistake?
  cases Source.tokens source with
  | error e => rfl
  | ok tokens =>
    dsimp only
    cases evaluateForms (.ofDepth traced world.limit) session.env .nil
      ((Cursor.ofTokens tokens).readAll world.limit).forms ⟨world.store, []⟩ with
    | error f s => rfl
    | ok v s => cases ((Cursor.ofTokens tokens).readAll world.limit).error <;> rfl

end Session

/-! ## Programs name nothing -/

def Reader.Phrase.Nameless (r : Renaming) : Reader.Phrase → Prop
  | .expr v => v.Same r v
  | .items vs => ∀ v ∈ vs, v.Same r v

theorem Value.Same.chain_of_forall {r : Renaming} {vs : List Value} {w : Value}
    (hvs : ∀ v ∈ vs, v.Same r v) (hw : w.Same r w) :
    (Value.chain vs w).Same r (Value.chain vs w) := by
  induction vs with
  | nil => exact hw
  | cons v vs ih =>
    obtain ⟨hv, hvs⟩ := List.forall_mem_cons.mp hvs
    exact .pair hv (ih hvs)

/-- What is read from tokens is the same under every renaming. -/
theorem Reader.Derives.nameless {room : Nat} {ts : List Token} {phrase : Reader.Phrase}
    (h : Reader.Derives room ts phrase) (r : Renaming) : phrase.Nameless r := by
  induction h with
  | quote h ih => exact .quoted ih
  | list first rest ihfirst ihrest =>
    exact .chain_of_forall (List.forall_mem_cons.mpr ⟨ihfirst, ihrest⟩) .nil
  | dotted first rest last ihfirst ihrest ihlast =>
    exact .chain_of_forall (List.forall_mem_cons.mpr ⟨ihfirst, ihrest⟩) ihlast
  | empty => exact .nil
  | boolean => exact .boolean _
  | integer => exact .integer _
  | string => exact .string _
  | symbol => exact .symbol _
  | none room => exact fun v hv => absurd hv List.not_mem_nil
  | item before h hdot ihbefore ih =>
    intro v hv
    rcases List.mem_append.mp hv with hv | hv
    · exact ihbefore v hv
    · obtain rfl := List.mem_singleton.mp hv
      exact ih

theorem Session.same_of_mem_forms {limit : Nat} {source : String} {e : Value}
    (h : e ∈ Session.forms limit source) (r : Renaming) : e.Same r e := by
  obtain ⟨ts, hderives⟩ := Session.exists_derives_of_mem_forms h
  exact hderives.nameless r

/-- A program goes the same way in corresponding states. -/
theorem Correspondence.ends_program (c : Correspondence) {session session' : Session}
    (hroot : c.place session.root session'.root)
    (htables : c.left.store.Matches c.toRenaming c.right.store) (traced : Bool) (source : String)
    (limit : Nat) :
    c.Ends (Value.Same c.toRenaming) (session.evaluated traced source limit c.left)
      (session'.evaluated traced source limit c.right) := by
  have hforms : List.Forall₂ (Value.Same c.toRenaming) (Session.forms limit source)
      (Session.forms limit source) :=
    List.forall₂_same.mpr fun _ he => Session.same_of_mem_forms he c.toRenaming
  exact Respects.evaluateForms (c.respects traced limit) ⟨.nil, hroot⟩ .nil hforms _ _
    (holds_start htables)

end MiniScheme

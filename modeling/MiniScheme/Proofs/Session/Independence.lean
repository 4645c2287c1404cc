import MiniScheme.Proofs.Session.Mirror

/-!
# Sessions are independent

Several sessions of one world are asked for this and that in turn, in any order. As long as the
limit on nesting stays as it is, what comes of it for one of them is what would come of it if the
others were not there: the same replies, and the same bindings in the end. "The same" means up to
the places of tables, which no program can see.

## Main definitions

* `Request`, `Reply`: what a session can be asked for, and what comes of it.
* `Hall`: a world with the sessions in it, by name.
* `Hall.performAll`: requests one after the other.
* `Hall.Mirrors`: another hall mirrors all that belongs to one name.

## Main statements

* `Hall.Mirrors.perform_own`, `Hall.Mirrors.perform_other`: one request.
* `Hall.Mirrors.performAll`: requests of all names against those of one name.
* `Hall.eval_local_and_sessions_independent`: evaluation is local, and sessions are independent.
-/

namespace MiniScheme

inductive Request where
  /-- To open, in place of a session of the same name. -/
  | start (prelude : Prelude) (limitSetting : String) (traced : Bool)
  | run (source : String) (traced : Bool)

namespace Request

def Within (limit : Nat) : Request → Prop
  | start _ limitSetting _ => ∀ n, Settings.limit? limitSetting = .ok (some n) → n ≤ limit
  | run _ _ => True

end Request

inductive Reply where
  | opened
  | answered (v : Value)
  | failed (e : RunError)
  deriving DecidableEq

namespace Reply

def ofRun : Except RunError Value → Reply
  | .ok v => answered v
  | .error e => failed e

def ofStart : Except RunError Session → Reply
  | .ok _ => opened
  | .error e => failed e

/-- Two replies: with the same value, or with errors that are alike. -/
inductive Same (r : Renaming) : Reply → Reply → Prop where
  | opened : Same r opened opened
  | answered {v w : Value} (h : v.Same r w) : Same r (answered v) (answered w)
  | failed {e e' : RunError} (h : e.Alike e') : Same r (failed e) (failed e')

variable {r r' : Renaming}

theorem Same.mono {a b : Reply} (h : a.Same r b) {bound : Nat} (hle : r'.Extends r bound) :
    a.Same r' b := by
  cases h with
  | opened => exact .opened
  | answered h => exact .answered (h.imp (fun _ => hle.place) hle.installation)
  | failed h => exact .failed h

theorem Same.ofRun {a b : Except RunError Value} (h : Session.SameAnswer r a b) :
    (Reply.ofRun a).Same r (Reply.ofRun b) := by
  cases h with
  | ok h => exact .answered h
  | error h => exact .failed h

theorem Same.ofStart {a b : Except RunError Session} (h : Session.SameOpening r a b) :
    (Reply.ofStart a).Same r (Reply.ofStart b) := by
  cases h with
  | ok h => exact .opened
  | error h => exact .failed h

end Reply

theorem Session.SameOpening.toOption {r : Renaming} {a b : Except RunError Session}
    (h : Session.SameOpening r a b) :
    Option.Rel (fun a b => r.place a.root b.root) a.toOption b.toOption := by
  cases h with
  | ok h => exact .some h
  | error h => exact .none

/-- A name in a hall: the session that is open under it, and the replies to it, latest first. -/
structure Member where
  session : Option Session
  replies : List Reply

/-- A world, and the sessions in it by name. -/
structure Hall where
  world : World
  members : Nat → Member

namespace Hall

def initial (limit : Nat) : Hall := ⟨⟨.empty, limit⟩, fun _ => ⟨none, []⟩⟩

def record (hall : Hall) (name : Nat) (world : World) (session : Option Session)
    (reply : Reply) : Hall where
  world
  members := Function.update hall.members name ⟨session, reply :: (hall.members name).replies⟩

/-- Deals with a request in some name. A program is run in the session that is open; if none is,
nothing happens. -/
def perform (hall : Hall) (name : Nat) : Request → Hall
  | .start prelude limitSetting traced =>
    let outcome := Session.start prelude limitSetting traced hall.world
    hall.record name outcome.world outcome.answer.toOption (.ofStart outcome.answer)
  | .run source traced =>
    match (hall.members name).session with
    | none => hall
    | some session =>
      let outcome := session.run traced source hall.world
      hall.record name outcome.world (some session) (.ofRun outcome.answer)

def performAll (hall : Hall) (requests : List (Nat × Request)) : Hall :=
  requests.foldl (fun hall request => hall.perform request.1 request.2) hall

/-- Another hall mirrors all that belongs to one name. -/
structure Mirrors (name : Nat) (r : Renaming) (hall hall' : Hall) : Prop where
  world : hall.world.Mirrors r hall'.world
  session : Option.Rel (fun a b => r.place a.root b.root) (hall.members name).session
    (hall'.members name).session
  replies : List.Forall₂ (Reply.Same r) (hall.members name).replies (hall'.members name).replies
  others : ∀ {other session}, other ≠ name → (hall.members other).session = some session →
    session.root < hall.world.store.tables.size ∧ ¬ r.Knows session.root

namespace Mirrors

variable {name : Nat} {r : Renaming} {hall hall' : Hall}

theorem initial (name limit : Nat) :
    Mirrors name ⟨fun _ _ => False, fun _ _ => False, ⟨by simp [Relator.LeftUnique],
      by simp [Relator.RightUnique]⟩, ⟨by simp [Relator.LeftUnique], by simp [Relator.RightUnique]⟩⟩
      (.initial limit) (.initial limit) where
  world :=
    { limit := rfl
      place_lt := False.elim
      installation_lt := False.elim
      tables := fun _ _ => False.elim
      placed := ⟨fun hget _ => by
        rw [Store.table_of_size_le (Nat.zero_le _)] at hget
        cases hget⟩
      apart := fun _ _ _ ⟨_, hj⟩ => hj }
  session := .none
  replies := .nil
  others _ hsome := by cases hsome

theorem record_own (h : Mirrors name r hall hall') {r' : Renaming} {world world' : World}
    {session session' : Option Session} {reply reply' : Reply}
    (hextends : r'.Extends r hall.world.store.tables.size)
    (hsize : hall.world.store.tables.size ≤ world.store.tables.size)
    (hworld : world.Mirrors r' world')
    (hsession : Option.Rel (fun a b => r'.place a.root b.root) session session')
    (hreply : reply.Same r' reply') :
    Mirrors name r' (hall.record name world session reply)
      (hall'.record name world' session' reply') where
  world := hworld
  session := by simpa only [record, Function.update_self] using hsession
  replies := by
    simp only [record, Function.update_self]
    exact .cons hreply (h.replies.imp fun _ _ hold => hold.mono hextends)
  others hne hsome := by
    simp only [record, Function.update_of_ne hne] at hsome
    obtain ⟨hlt, hknows⟩ := h.others hne hsome
    exact ⟨Nat.lt_of_lt_of_le hlt hsize, fun hr => hknows (hextends.knows hlt hr)⟩

theorem record_other (h : Mirrors name r hall hall') {other : Nat} (hother : other ≠ name)
    {world : World} {session : Option Session} (reply : Reply)
    (hsize : hall.world.store.tables.size ≤ world.store.tables.size)
    (hworld : world.Mirrors r hall'.world)
    (hsession : ∀ opened, session = some opened →
      opened.root < world.store.tables.size ∧ ¬ r.Knows opened.root) :
    Mirrors name r (hall.record other world session reply) hall' where
  world := hworld
  session := by simpa only [record, Function.update_of_ne hother.symm] using h.session
  replies := by simpa only [record, Function.update_of_ne hother.symm] using h.replies
  others {another running} hne hsome := by
    by_cases heq : another = other
    · subst heq
      simp only [record, Function.update_self] at hsome
      exact hsession running hsome
    · simp only [record, Function.update_of_ne heq] at hsome
      obtain ⟨hlt, hknows⟩ := h.others hne hsome
      exact ⟨Nat.lt_of_lt_of_le hlt hsize, hknows⟩

/-- A request in the name itself, in both halls. -/
theorem perform_own (h : Mirrors name r hall hall') {request : Request}
    (hwithin : request.Within hall.world.limit) :
    ∃ r', Mirrors name r' (hall.perform name request) (hall'.perform name request) := by
  cases request with
  | start prelude setting traced =>
    obtain ⟨r', hextends, hworld, hsame⟩ := h.world.start hwithin prelude traced
    have hsize := Nat.le_of_lt (World.Mirrors.size_lt_start hwithin prelude traced)
    exact ⟨r', h.record_own hextends hsize hworld hsame.toOption (.ofStart hsame)⟩
  | run source traced =>
    have hsession := h.session
    unfold perform
    generalize (hall.members name).session = opened at hsession ⊢
    generalize (hall'.members name).session = opened' at hsession ⊢
    cases hsession with
    | none => exact ⟨r, h⟩
    | @some session session' hroot =>
      obtain ⟨r', hextends, hworld, hsame⟩ := h.world.run hroot traced source
      have hsize := World.Mirrors.size_le_run session traced source hall.world
      exact ⟨r', h.record_own hextends hsize hworld (.some (hextends.place hroot)) (.ofRun hsame)⟩

/-- A request in another name, which the mirror does not see. -/
theorem perform_other (h : Mirrors name r hall hall') {other : Nat} (hother : other ≠ name)
    {request : Request} (hwithin : request.Within hall.world.limit) :
    Mirrors name r (hall.perform other request) hall' := by
  cases request with
  | start prelude setting traced =>
    obtain ⟨hworld, hroot⟩ := h.world.start_outside hwithin prelude traced
    have hsize := World.Mirrors.size_lt_start hwithin prelude traced
    refine h.record_other hother _ (Nat.le_of_lt hsize) hworld fun opened hopened => ?_
    have hok : (Session.start prelude setting traced hall.world).answer = .ok opened := by
      cases hanswer : (Session.start prelude setting traced hall.world).answer with
      | error e => simp [hanswer, Except.toOption] at hopened
      | ok session => simpa [hanswer, Except.toOption] using hopened
    refine ⟨?_, hroot hok⟩
    rw [Session.eq_of_start hok]
    exact hsize
  | run source traced =>
    unfold perform
    cases hsession : (hall.members other).session with
    | none => exact h
    | some running =>
      obtain ⟨hlt, hknows⟩ := h.others hother hsession
      have hsize := World.Mirrors.size_le_run running traced source hall.world
      refine h.record_other hother _ hsize (h.world.run_outside hknows traced source) ?_
      rintro opened ⟨⟩
      exact ⟨Nat.lt_of_lt_of_le hlt hsize, hknows⟩

/-- The limit of a hall stays as it is. -/
theorem limit_perform {request : Request} (hwithin : request.Within hall.world.limit) (name : Nat) :
    (hall.perform name request).world.limit = hall.world.limit := by
  cases request with
  | start prelude setting traced => exact World.Mirrors.limit_start hwithin prelude traced
  | run source traced =>
    unfold perform
    cases (hall.members name).session with
    | none => rfl
    | some session =>
      change (session.run traced source hall.world).world.limit = _
      rw [Session.run_eq]

/-- Requests in all names, against those in one name alone. -/
theorem performAll (h : Mirrors name r hall hall') {requests : List (Nat × Request)}
    (hwithin : ∀ request ∈ requests, request.2.Within hall.world.limit) :
    ∃ r', Mirrors name r' (hall.performAll requests)
      (hall'.performAll (requests.filter (·.1 = name))) := by
  induction requests generalizing r hall hall' with
  | nil => exact ⟨r, h⟩
  | cons request requests ih =>
    obtain ⟨other, asked⟩ := request
    obtain ⟨hasked, hrest⟩ := List.forall_mem_cons.mp hwithin
    have hrest' : ∀ request ∈ requests,
        request.2.Within (hall.perform other asked).world.limit := by
      rw [limit_perform hasked]
      exact hrest
    by_cases hother : other = name
    · subst hother
      obtain ⟨r', h'⟩ := h.perform_own hasked
      simpa [Hall.performAll] using ih h' hrest'
    · simpa [Hall.performAll, hother] using ih (h.perform_other hother hasked) hrest'

end Mirrors

def root? (hall : Hall) (name : Nat) : Option Table :=
  (hall.members name).session.map fun session => hall.world.store.table session.root

/-- Evaluation is local, and so sessions are independent.

Whatever comes of an evaluation, it leaves the tables that are out of reach as they are, and what is
in them makes no difference to it. And of the requests to several sessions, with the limit on
nesting left alone, each session has the same replies and in the end the same bindings as if its own
requests were the only ones. -/
theorem eval_local_and_sessions_independent :
    (∀ (traced : Bool) (depth : Nat) (env : Env) (e operands : Value) (s : EvalState),
      (∀ id < s.store.tables.size, ¬ s.store.Reachable env [e, operands] id →
        (finalState (eval traced depth env e operands s)).store.table id = s.store.table id) ∧
      ∀ s' : EvalState, s'.store.tables.size = s.store.tables.size →
        (∀ id, s.store.Reachable env [e, operands] id → s'.store.table id = s.store.table id) →
        finalAnswer (eval traced depth env e operands s') =
            finalAnswer (eval traced depth env e operands s) ∧
          ∀ id, s.store.Reachable env [e, operands] id ∨ s.store.tables.size ≤ id →
            (finalState (eval traced depth env e operands s')).store.table id =
              (finalState (eval traced depth env e operands s)).store.table id) ∧
    ∀ (limit : Nat) (requests : List (Nat × Request)) (name : Nat),
      (∀ request ∈ requests, request.2.Within limit) →
      ∃ r : Renaming,
        List.Forall₂ (Reply.Same r)
          (((initial limit).performAll requests).members name).replies
          (((initial limit).performAll (requests.filter (·.1 = name))).members name).replies ∧
        Option.Rel (Table.Same r) (((initial limit).performAll requests).root? name)
          (((initial limit).performAll (requests.filter (·.1 = name))).root? name) := by
  refine ⟨fun traced depth env e operands s => ⟨fun id hlt hid => ?_, fun s' hsize hagree => ?_⟩,
    fun limit requests name hwithin => ?_⟩
  · exact table_eval_of_not_reachable traced depth hlt hid
  · exact eval_eq_of_reachable hsize (hagree _) traced depth
  · obtain ⟨r, h⟩ := (Mirrors.initial name limit).performAll hwithin
    refine ⟨r, h.replies, ?_⟩
    have hsession := h.session
    unfold root?
    generalize (((initial limit).performAll requests).members name).session = opened at hsession ⊢
    generalize (((initial limit).performAll (requests.filter (·.1 = name))).members name).session =
      opened' at hsession ⊢
    cases hsession with
    | none => exact .none
    | some hroot => exact .some (h.world.tables _ _ hroot)

/-- An assignment in one root leaves another root with the same name alone, whatever that binds. And
a session in which addition is redefined does not disturb a procedure of another one that adds. -/
theorem eval_local_and_sessions_independent_of_redefinition :
    let root (n : Int) : Table := Table.empty.insert "x" (.integer n)
    let state (n : Int) : EvalState := ⟨⟨#[root 1, root n], 0⟩, []⟩
    let env : Env := ⟨[], 0⟩
    let e := Value.chain [.form .assign 0, .symbol "x", .integer 5] .nil
    let requests : List (Nat × Request) :=
      [(0, .start .absent "" false), (1, .start .absent "1000" false),
        (0, .run "(define f (lambda (x) (+ x 1)))" false), (1, .run "(define + -)" false),
        (0, .run "(f 5)" false), (1, .run "(+ 5 1)" false)]
    ¬ (state 2).store.Reachable env [e, .nil] 1 ∧
      (finalState (eval false 5 env e .nil (state 2))).store.table 1 = root 2 ∧
      finalAnswer (eval false 5 env e .nil (state 2)) = .ok (.integer 5) ∧
      finalAnswer (eval false 5 env e .nil (state 3)) = .ok (.integer 5) ∧
      (∀ request ∈ requests, request.2.Within 1000) ∧
      (((initial 1000).performAll requests).members 0).replies.head? =
        some (.answered (.integer 6)) ∧
      (((initial 1000).performAll requests).members 1).replies.head? =
        some (.answered (.integer 4)) ∧
      ∃ r : Renaming, List.Forall₂ (Reply.Same r)
        (((initial 1000).performAll requests).members 0).replies
        (((initial 1000).performAll (requests.filter (·.1 = 0))).members 0).replies := by
  intro root state env e requests
  have hreach : ∀ {id}, (state 2).store.Reachable env [e, .nil] id → id = 0 := by
    intro id hid
    induction hid with
    | scope h => simpa [env, Env.tables] using h
    | given hv hmem =>
      rcases List.mem_pair.mp hv with rfl | rfl
      · cases hmem
      · cases hmem
    | @bound _ _ x _ _ _ _ hget hmem ih =>
      subst ih
      have hx : (root 1).get? x = if x = "x" then some (.integer 1) else none :=
        Table.get?_insert _ "x" x _
      change (root 1).get? x = _ at hget
      rw [hx] at hget
      split at hget <;> cases hget
      cases hmem
  have hone : ¬ (state 2).store.Reachable env [e, .nil] 1 := fun h => by cases hreach h
  have hwithin : ∀ request ∈ requests, request.2.Within 1000 := by
    have hblank : Settings.limit? "" = .ok none := rfl
    have hlimit : Settings.limit? "1000" = .ok (some 1000) := rfl
    simp [requests, Request.Within, hblank, hlimit]
  obtain ⟨hlocal, hindependent⟩ := eval_local_and_sessions_independent
  obtain ⟨hframe, hblind⟩ := hlocal false 5 env e .nil (state 2)
  have hanswer : finalAnswer (eval false 5 env e .nil (state 2)) = .ok (.integer 5) := rfl
  obtain ⟨hsame, -⟩ := hblind (state 3) rfl fun id hid => by rw [hreach hid]; rfl
  obtain ⟨r, hreplies, -⟩ := hindependent 1000 requests 0 hwithin
  exact ⟨hone, hframe 1 (by decide) hone, hanswer, hsame.trans hanswer, hwithin, by decide +kernel,
    by decide +kernel, r, hreplies⟩

end Hall

end MiniScheme

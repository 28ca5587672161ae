import Lox.Proofs.Input
import Lox.Proofs.Parallel
import Lox.Proofs.Placement

/-! Homes. A function is at home in the class that it was written in and with the instance that it
was bound to, wherever it is called from. Evaluated at home, `this` and `super` need no look at any
environment: they speak of that instance, and of the superclass that the class was given when it
was declared. -/

namespace Lox

/-- Outside of every class; a class that has been declared, with its superclass if it has one; or
such a class and the instance that a method of it is bound to. -/
inductive Home
  | outside
  | class_ (superclass : Option Class)
  | method (superclass : Option Class) (receiver : Value)

/-- The home of each function that is created. -/
abbrev Ledger := Nat → Home

namespace Ledger
open Eval
variable (settings : Settings) (L : Ledger) (alarm : Failure)

open Classical in
/-- Sounds the alarm unless the function is entered with the home. -/
noncomputable def check (f : Closure) (home : Home) : Eval Unit :=
  if L f.id = home then return () else throw alarm

noncomputable def newFunction (home : Home) (declaration : BoundFunction) (isInitializer : Bool) :
    Eval Closure := do
  let f ← Eval.newFunction declaration isInitializer
  check L alarm f home
  return f

noncomputable def newMethods (home : Home) :
    List BoundFunction → Bindings Closure → Eval (Bindings Closure)
  | [], methods => return methods
  | f :: fs, methods => do
    let method ← newFunction L alarm home f f.isInitializer
    newMethods home fs (methods.put f.name.lexeme method)

/-- Only methods of a class can be bound, and each but once. -/
noncomputable def bindMethod (method : Closure) (receiver : Value) : Eval Closure := do
  match L method.id with
  | .class_ superclass =>
    let f ← Eval.bindMethod method receiver
    check L alarm f (.method superclass receiver)
    return f
  | _ => throw alarm

def this : Home → Eval Value
  | .method _ receiver => return receiver
  | _ => throw alarm

noncomputable def superMethod (home : Home) (method : Token) : Eval Value := do
  match home with
  | .method (some superclass) receiver =>
    match superclass.findMethod method.lexeme with
    | some f => return .function (← bindMethod L alarm f receiver)
    | none => raise (.undefinedProperty method.lexeme) method.line
  | _ => throw alarm

noncomputable def declareClass (ev : BoundExpr → Eval Value) (name : Token)
    (superclass? : Option (Superclass Hops)) (methods : List BoundFunction) : Eval Unit := do
  match superclass? with
  | none =>
    define name.lexeme .nil
    let methods ← newMethods L alarm (.class_ none) methods []
    let c := Class.root (← nextId) name.lexeme methods
    assignFrom (← get).current name (.class_ c)
  | some s =>
    match ← ev s.expr with
    | .class_ superclass =>
      define name.lexeme .nil
      let e ← newEnvironment (← get).current [("super", .class_ superclass)]
      let methods ← inEnvironment e (newMethods L alarm (.class_ (some superclass)) methods [])
      let c := Class.derived (← nextId) name.lexeme methods superclass
      assignFrom (← get).current name (.class_ c)
    | _ => raise .superclassNotClass s.name.line

noncomputable def evaluateForm (home : Home) (ev : BoundExpr → Eval Value)
    (enter : Closure → List Value → Eval Value) : BoundExpr → Eval Value
  | .call callee paren arguments => do
    let callee ← ev callee
    let arguments ← evaluateAll ev arguments
    callBy settings (bindMethod L alarm) enter callee arguments paren.line
  | .get object name => do
    let object ← ev object
    getPropertyBy (bindMethod L alarm) object name
  | .this _ _ => this alarm home
  | .super _ _ method => superMethod L alarm home method
  | e => Eval.evaluateForm settings ev enter e

/-- A function is created at the home of the place that it is declared in. -/
noncomputable def executeForm (home : Home) (ev : BoundExpr → Eval Value)
    (ex : BoundStmt → Eval Completion) : BoundStmt → Eval Completion
  | .function declaration => do
    let f ← newFunction L alarm home declaration false
    define f.name (.function f)
    return .normal
  | .class_ _ name superclass methods => do
    declareClass L alarm ev name superclass methods
    return .normal
  | s => Eval.executeForm settings ev ex s

mutual

noncomputable def evaluate : (nesting : Nat) → Home → BoundExpr → Eval Value
  | 0, _, _ => throw .exhausted
  | nesting + 1, home, e =>
    evaluateForm settings L alarm home (evaluate nesting home)
      (fun f => apply (execute nesting (L f.id)) f) e

/-- Executes a statement that stands in a function of the home. A function that is called runs at
its own home. -/
noncomputable def execute : (nesting : Nat) → Home → BoundStmt → Eval Completion
  | 0, _, _ => throw .exhausted
  | nesting + 1, home, s => do
    if settings.trace then emit (.traced s.line s.kind)
    executeForm settings L alarm home (evaluate nesting home) (execute nesting home) s

end

noncomputable def executeProgram : List BoundStmt → Eval Unit
  | [] => return ()
  | s :: ss => do
    let _ ← execute settings L alarm settings.nesting .outside s
    executeProgram ss

end Ledger

/-- How many scopes out `this` is bound, and whether `super` is bound one further out. -/
structure Seat where
  distance : Nat
  hasSuper : Bool

def Seat.inner (seat : Seat) : Seat := { seat with distance := seat.distance + 1 }

/-- A name that can be declared or assigned. -/
structure Token.Plain (t : Token) : Prop where
  ne_this : t.lexeme ≠ "this"
  ne_super : t.lexeme ≠ "super"

namespace Expr

mutual

/-- Every `this` and `super` of the expression finds its seat, and nothing is assigned to them. -/
def Seated (seat : Option Seat) : BoundExpr → Prop
  | literal .. | read .. => True
  | grouping _ inner => Seated seat inner
  | unary _ right => Seated seat right
  | binary left _ right | logical left _ right => Seated seat left ∧ Seated seat right
  | assign _ name _ value => name.Plain ∧ Seated seat value
  | call callee _ arguments => Seated seat callee ∧ SeatedList seat arguments
  | get object _ => Seated seat object
  | set _ object _ value => Seated seat object ∧ Seated seat value
  | this keyword target => keyword.lexeme = "this" ∧ ∃ s ∈ seat, target = some s.distance
  | super _ target _ => ∃ s ∈ seat, s.hasSuper ∧ target = some (s.distance + 1)

def SeatedList (seat : Option Seat) : List BoundExpr → Prop
  | [] => True
  | e :: es => Seated seat e ∧ SeatedList seat es

end

end Expr

namespace Stmt

mutual

def Seated (seat : Option Seat) : BoundStmt → Prop
  | expression _ value | print _ value => value.Seated seat
  | var name initializer => name.Plain ∧ ∀ e ∈ initializer, e.Seated seat
  | block _ body => SeatedList (seat.map Seat.inner) body
  | ifThen _ condition thenBranch => condition.Seated seat ∧ Seated seat thenBranch
  | ifElse _ condition thenBranch elseBranch =>
    condition.Seated seat ∧ Seated seat thenBranch ∧ Seated seat elseBranch
  | while_ _ condition body => condition.Seated seat ∧ Seated seat body
  | function declaration => declaration.name.Plain ∧ FunctionSeated seat declaration
  | return_ _ value => ∀ e ∈ value, e.Seated seat
  | class_ _ name superclass methods =>
    name.Plain ∧ MethodsSeated (some ⟨0, superclass.isSome⟩) methods

def SeatedList (seat : Option Seat) : List BoundStmt → Prop
  | [] => True
  | s :: ss => Seated seat s ∧ SeatedList seat ss

/-- For a function whose environment lies at the seat. -/
def FunctionSeated (seat : Option Seat) : BoundFunction → Prop
  | .mk _ _ body => SeatedList (seat.map Seat.inner) body

def MethodsSeated (seat : Option Seat) : List BoundFunction → Prop
  | [] => True
  | f :: fs => FunctionSeated seat f ∧ MethodsSeated seat fs

end

end Stmt

namespace Surroundings
variable {s : Surroundings}

def seat (s : Surroundings) : Option Seat :=
  if s.context = .outside then none
  else (s.hops "this").map fun distance => ⟨distance, s.context == .subclass⟩

theorem seat_congr {t : Surroundings} (hcontext : t.context = s.context)
    (hhops : t.hops "this" = s.hops "this") : t.seat = s.seat := by
  unfold seat
  rw [hcontext, hhops]

theorem seat_bind {name : Token} (h : name.Plain) (s : Surroundings) (ready : Bool) :
    (s.bind name.lexeme ready).seat = s.seat :=
  seat_congr (context_bind s _ _) (hops_bind_of_ne h.ne_this s ready)

theorem seat_initializing (s : Surroundings) (name : Token) : (s.initializing name).seat = s.seat :=
  seat_congr (context_initializing s name) (hops_initializing s name _)

theorem seat_push {b : Bindings Bool} (h : b.find? "this" = none) (s : Surroundings) :
    (s.push b).seat = s.seat.map Seat.inner := by
  have hhops : (s.push b).hops "this" = (s.hops "this").map (· + 1) := by simp [hops_push, h]
  unfold seat
  rw [hhops]
  show (if s.context = .outside then none else _) = _
  split
  · rfl
  · cases s.hops "this" <;> rfl

theorem seat_ofMethods (s : Surroundings) (isSubclass : Bool) :
    (s.ofMethods isSubclass).seat = some ⟨0, isSubclass⟩ := by
  cases isSubclass <;> rfl

theorem seat_entering {parameters : List Token} (hp : ∀ p ∈ parameters, p.Plain)
    (s : Surroundings) (activation : Activation) :
    (s.entering activation parameters).seat = s.seat.map Seat.inner := by
  have hthis : (parameterScope parameters).find? "this" = none := by
    rw [find?_parameterScope, if_neg]
    intro hm
    obtain ⟨p, hpm, he⟩ := List.mem_map.1 hm
    exact (hp p hpm).ne_this he
  rw [entering_eq, seat_push hthis]
  rfl

end Surroundings

theorem Token.Names.plain {t : Token} (h : t.Names Token.Spelled) : t.Plain :=
  ⟨lexeme_ne_this h, lexeme_ne_super h⟩

namespace Expr

mutual

theorem seated_bound {s : Surroundings} (hs : s.Lawful) (e : RawExpr) (hp : e.problems s = [])
    (hr : e.Regular Token.Spelled) : (e.bound s).Seated s.seat := by
  cases e with
  | literal line value => trivial
  | read name _ => trivial
  | grouping line inner => exact seated_bound hs inner hp hr
  | unary operator right => exact seated_bound hs right hp hr.2
  | binary left operator right =>
    obtain ⟨hpl, hpr⟩ := List.append_eq_nil_iff.1 hp
    exact ⟨seated_bound hs left hpl hr.1, seated_bound hs right hpr hr.2.2⟩
  | logical left operator right =>
    obtain ⟨hpl, hpr⟩ := List.append_eq_nil_iff.1 hp
    exact ⟨seated_bound hs left hpl hr.1, seated_bound hs right hpr hr.2.2⟩
  | assign line name _ value => exact ⟨hr.1.plain, seated_bound hs value hp hr.2⟩
  | call callee paren arguments =>
    obtain ⟨hpc, hpa⟩ := List.append_eq_nil_iff.1 hp
    exact ⟨seated_bound hs callee hpc hr.1, seatedList_boundList hs arguments hpa hr.2.2⟩
  | get object name => exact seated_bound hs object hp hr.1
  | set line object name value =>
    obtain ⟨hpv, hpo⟩ := List.append_eq_nil_iff.1 hp
    exact ⟨seated_bound hs object hpo hr.1, seated_bound hs value hpv hr.2.2⟩
  | this keyword _ =>
    have hk := Token.lexeme_this hr.1 hr.2
    have hc : s.context ≠ .outside := fun hc => by
      simp [problems, Surroundings.misusedThis, hc] at hp
    obtain ⟨d, hd⟩ := hs.this hc
    refine ⟨hk, ⟨d, s.context == .subclass⟩, ?_, ?_⟩
    · simp [Surroundings.seat, hc, hd]
    · simp [hc, hk, hd]
  | super keyword _ method =>
    have hc : s.context = .subclass := by
      cases hc : s.context <;> simp [problems, Surroundings.misusedSuper, hc] at hp ⊢
    obtain ⟨d, hd, hd'⟩ := hs.super hc
    refine ⟨⟨d, true⟩, ?_, rfl, ?_⟩
    · simp [Surroundings.seat, hc, hd]
    · rw [Token.lexeme_super hr.1.1 hr.1.2, hd']

theorem seatedList_boundList {s : Surroundings} (hs : s.Lawful) (es : List RawExpr)
    (hp : problemsList s es = []) (hr : RegularList Token.Spelled es) :
    SeatedList s.seat (boundList s es) := by
  cases es with
  | nil => trivial
  | cons e es =>
    obtain ⟨hpe, hpes⟩ := List.append_eq_nil_iff.1 hp
    exact ⟨seated_bound hs e hpe hr.1, seatedList_boundList hs es hpes hr.2⟩

end

theorem seated?_bound {s : Surroundings} (hs : s.Lawful) {e : Option RawExpr}
    (hp : problems? s e = []) (hr : Regular? Token.Spelled e) :
    ∀ b ∈ e.map (Expr.bound s), b.Seated s.seat := by
  cases e with
  | none => exact fun b hb => nomatch hb
  | some e =>
    rintro b ⟨⟩
    exact seated_bound hs e hp (hr e rfl)

end Expr

namespace Stmt
open Surroundings

theorem seat_after {s : Surroundings} {st : RawStmt} (hr : st.Regular Token.Spelled) :
    (after s st).seat = s.seat := by
  cases hn : st.declared? with
  | none => rw [after_of_isPlain hr (isPlain_of_not_declared hn)]
  | some name =>
    rw [after_of_declared hn]
    exact seat_bind (names_of_declared hr hn).plain s true

mutual

theorem seated_bound {s : Surroundings} (hs : s.Lawful) (st : RawStmt) (hp : st.problems s = [])
    (hr : st.Regular Token.Spelled) : (st.bound s).Seated s.seat := by
  cases st with
  | expression line value => exact Expr.seated_bound hs value hp hr
  | print line value => exact Expr.seated_bound hs value hp hr
  | var name initializer =>
    have hname := hr.1.plain
    have hs' := (hs.bind hname.ne_this hname.ne_super false).initializing name
    have hseat : ((s.bind name.lexeme false).initializing name).seat = s.seat := by
      rw [seat_initializing, seat_bind hname]
    exact ⟨hname, hseat ▸ Expr.seated?_bound hs' (List.append_eq_nil_iff.1 hp).2 hr.2⟩
  | block line body =>
    have h := seatedList_boundList (hs.push rfl rfl) body hp hr
    rw [seat_push rfl] at h
    exact h
  | ifThen line condition thenBranch =>
    obtain ⟨hpc, hpt⟩ := List.append_eq_nil_iff.1 hp
    exact ⟨Expr.seated_bound hs condition hpc hr.1, seated_bound hs thenBranch hpt hr.2.1⟩
  | ifElse line condition thenBranch elseBranch =>
    obtain ⟨hpct, hpe⟩ := List.append_eq_nil_iff.1 hp
    obtain ⟨hpc, hpt⟩ := List.append_eq_nil_iff.1 hpct
    obtain ⟨hrc, ⟨hrt, -⟩, hre, -⟩ := hr
    refine ⟨Expr.seated_bound hs condition hpc hrc, seated_bound hs thenBranch hpt hrt, ?_⟩
    exact seat_after hrt ▸ seated_bound (lawful_after hs hrt) elseBranch hpe hre
  | while_ line condition body =>
    obtain ⟨hpc, hpb⟩ := List.append_eq_nil_iff.1 hp
    exact ⟨Expr.seated_bound hs condition hpc hr.1, seated_bound hs body hpb hr.2.1⟩
  | function f =>
    obtain ⟨name, parameters, body⟩ := f
    have hname := hr.1.plain
    have h := functionSeated_functionBound (hs.bind hname.ne_this hname.ne_super true) .function
      (.mk name parameters body) (List.append_eq_nil_iff.1 hp).2 hr
    exact ⟨hname, seat_bind hname s true ▸ h⟩
  | return_ keyword value =>
    exact Expr.seated?_bound hs (List.append_eq_nil_iff.1 hp).2 hr.2
  | class_ line name superclass methods =>
    obtain ⟨hn, -, hm⟩ := hr
    have h := methodsSeated_methodsBound
      (lawful_ofMethods (s.bind name.lexeme true) superclass.isSome) methods
      (List.append_eq_nil_iff.1 hp).2 hm
    rw [seat_ofMethods] at h
    exact ⟨hn.plain, by simpa using h⟩

theorem seatedList_boundList {s : Surroundings} (hs : s.Lawful) (ss : List RawStmt)
    (hp : problemsList s ss = []) (hr : RegularList Token.Spelled ss) :
    SeatedList s.seat (boundList s ss) := by
  cases ss with
  | nil => trivial
  | cons st ss =>
    obtain ⟨hps, hpss⟩ := List.append_eq_nil_iff.1 hp
    refine ⟨seated_bound hs st hps hr.1, ?_⟩
    exact seat_after hr.1 ▸ seatedList_boundList (lawful_after hs hr.1) ss hpss hr.2

theorem functionSeated_functionBound {s : Surroundings} (hs : s.Lawful) (activation : Activation)
    (f : RawFunction) (hp : functionProblems s activation f = [])
    (hr : FunctionRegular Token.Spelled f) :
    FunctionSeated s.seat (functionBound s activation f) := by
  obtain ⟨name, parameters, body⟩ := f
  obtain ⟨-, hparameters, hbody⟩ := hr
  have h := seatedList_boundList (hs.entering activation hparameters) body
    (List.append_eq_nil_iff.1 hp).2 hbody
  rw [seat_entering fun p hp => (hparameters p hp).plain] at h
  exact h

theorem methodsSeated_methodsBound {s : Surroundings} (hs : s.Lawful) (fs : List RawFunction)
    (hp : methodsProblems s fs = []) (hr : MethodsRegular Token.Spelled fs) :
    MethodsSeated s.seat (methodsBound s fs) := by
  cases fs with
  | nil => trivial
  | cons f fs =>
    obtain ⟨hpf, hpfs⟩ := List.append_eq_nil_iff.1 hp
    exact ⟨functionSeated_functionBound hs _ f hpf hr.1,
      methodsSeated_methodsBound hs fs hpfs hr.2⟩

end

/-- In an accepted program everything finds its seat. -/
theorem seatedList_of_accepted {program : List RawStmt} (h : Accepted program) :
    SeatedList none (boundList .topLevel program) :=
  seatedList_boundList lawful_topLevel program h.accepted h.regular

end Stmt
end Lox

import Lox.Scope

/-! Resolution without a running state. What a tree becomes, what is wrong with it and which names
it declares are functions of its surroundings alone; a resolver computes the three at once. -/

namespace Lox
namespace Surroundings

def hops (s : Surroundings) (name : String) : Hops :=
  s.scopes.findIdx? fun scope => (scope.find? name).isSome

def bind (s : Surroundings) (name : String) (ready : Bool) : Surroundings :=
  match s.scopes with
  | [] => s
  | scope :: scopes => { s with scopes := scope.put name ready :: scopes }

def push (s : Surroundings) (initial : Bindings Bool) : Surroundings :=
  { s with scopes := initial :: s.scopes }

def unready (s : Surroundings) (name : String) : Bool :=
  s.scopes.head?.bind (·.find? name) == some false

def redeclared (s : Surroundings) (name : Token) : List StaticError :=
  if (s.scopes.head?.bind (·.find? name.lexeme)).isSome then [.atToken name .alreadyDeclared]
  else []

def misread (s : Surroundings) (name : Token) : List StaticError :=
  match s.scopes with
  | scope :: _ =>
    if scope.find? name.lexeme = some false then [.atToken name .localInOwnInitializer] else []
  | [] => if s.pending = some name.lexeme then [.atToken name .globalInOwnInitializer] else []

def initializing (s : Surroundings) (name : Token) : Surroundings :=
  if s.scopes.isEmpty then { s with pending := some name.lexeme } else s

def misusedThis (s : Surroundings) (keyword : Token) : List StaticError :=
  if s.context = .outside then [.atToken keyword .thisOutsideClass] else []

def misusedSuper (s : Surroundings) (keyword : Token) : List StaticError :=
  match s.context with
  | .outside => [.atToken keyword .superOutsideClass]
  | .class_ => [.atToken keyword .superWithoutSuperclass]
  | .subclass => []

def misplacedReturn (s : Surroundings) (keyword : Token) (value : Option RawExpr) :
    List StaticError :=
  (if s.activation = .topLevel then [.atToken keyword .returnOutsideFunction] else []) ++
  (if value.isSome ∧ s.activation = .initializer then [.atToken keyword .valueFromInitializer]
   else [])

def selfInherited (name : Token) (s : Superclass Unit) : List StaticError :=
  if s.name.lexeme = name.lexeme then [.atToken s.name .inheritsFromItself] else []

def withParameters (s : Surroundings) (parameters : List Token) : Surroundings :=
  parameters.foldl (fun s p => s.bind p.lexeme true) s

def repeatedParameters (s : Surroundings) : List Token → List StaticError
  | [] => []
  | p :: ps => s.redeclared p ++ (s.bind p.lexeme true).repeatedParameters ps

/-- Inside a function: its parameters and its body share a scope. -/
def entering (s : Surroundings) (activation : Activation) (parameters : List Token) :
    Surroundings :=
  ({ s with activation }.push []).withParameters parameters

def ofMethods (s : Surroundings) (isSubclass : Bool) : Surroundings :=
  (if isSubclass then { s with context := .subclass }.push [("super", true)]
   else { s with context := .class_ }).push [("this", true)]

end Surroundings

namespace Expr

mutual

def bound (s : Surroundings) : RawExpr → BoundExpr
  | literal line value => literal line value
  | grouping line inner => grouping line (bound s inner)
  | unary operator right => unary operator (bound s right)
  | binary left operator right => binary (bound s left) operator (bound s right)
  | logical left operator right => logical (bound s left) operator (bound s right)
  | read name _ => read name (s.hops name.lexeme)
  | assign line name _ value => assign line name (s.hops name.lexeme) (bound s value)
  | call callee paren arguments => call (bound s callee) paren (boundList s arguments)
  | get object name => get (bound s object) name
  | set line object name value => set line (bound s object) name (bound s value)
  | this keyword _ => this keyword (if s.context = .outside then none else s.hops keyword.lexeme)
  | super keyword _ method => super keyword (s.hops keyword.lexeme) method

def boundList (s : Surroundings) : List RawExpr → List BoundExpr
  | [] => []
  | e :: es => bound s e :: boundList s es

end

mutual

def problems (s : Surroundings) : RawExpr → List StaticError
  | literal .. => []
  | grouping _ inner => problems s inner
  | unary _ right => problems s right
  | binary left _ right => problems s left ++ problems s right
  | logical left _ right => problems s left ++ problems s right
  | read name _ => s.misread name
  | assign _ _ _ value => problems s value
  | call callee _ arguments => problems s callee ++ problemsList s arguments
  | get object _ => problems s object
  | set _ object _ value => problems s value ++ problems s object
  | this keyword _ => s.misusedThis keyword
  | super keyword .. => s.misusedSuper keyword

def problemsList (s : Surroundings) : List RawExpr → List StaticError
  | [] => []
  | e :: es => problems s e ++ problemsList s es

end

def problems? (s : Surroundings) (e : Option RawExpr) : List StaticError :=
  (e.map (problems s)).getD []

end Expr

namespace Superclass

def bound (s : Surroundings) (c : Superclass Unit) : Superclass Hops :=
  ⟨c.name, s.hops c.name.lexeme⟩

end Superclass

namespace Stmt

/-- What is known behind a statement, in the scope that it stands in. -/
def after (s : Surroundings) : RawStmt → Surroundings
  | var name _ | function (.mk name ..) | class_ _ name .. => s.bind name.lexeme true
  | ifThen _ _ thenBranch => after s thenBranch
  | ifElse _ _ thenBranch elseBranch => after (after s thenBranch) elseBranch
  | while_ _ _ body => after s body
  | expression .. | print .. | block .. | return_ .. => s

def afterList (s : Surroundings) (ss : List RawStmt) : Surroundings := ss.foldl after s

mutual

def bound (s : Surroundings) : RawStmt → BoundStmt
  | expression line value => expression line (value.bound s)
  | print line value => print line (value.bound s)
  | var name initializer =>
    var name (initializer.map (Expr.bound ((s.bind name.lexeme false).initializing name)))
  | block line body => block line (boundList (s.push []) body)
  | ifThen line condition thenBranch => ifThen line (condition.bound s) (bound s thenBranch)
  | ifElse line condition thenBranch elseBranch =>
    ifElse line (condition.bound s) (bound s thenBranch)
      (bound (after s thenBranch) elseBranch)
  | while_ line condition body => while_ line (condition.bound s) (bound s body)
  | function (.mk name parameters body) =>
    function (functionBound (s.bind name.lexeme true) .function (.mk name parameters body))
  | return_ keyword value => return_ keyword (value.map (Expr.bound s))
  | class_ line name superclass methods =>
    let s := s.bind name.lexeme true
    class_ line name (superclass.map (Superclass.bound s))
      (methodsBound (s.ofMethods superclass.isSome) methods)

def boundList (s : Surroundings) : List RawStmt → List BoundStmt
  | [] => []
  | st :: ss => bound s st :: boundList (after s st) ss

def functionBound (s : Surroundings) (activation : Activation) : RawFunction → BoundFunction
  | .mk name parameters body =>
    .mk name parameters (boundList (s.entering activation parameters) body)

def methodsBound (s : Surroundings) : List RawFunction → List BoundFunction
  | [] => []
  | f :: fs => functionBound s (Resolver.methodActivation f) f :: methodsBound s fs

end

mutual

def problems (s : Surroundings) : RawStmt → List StaticError
  | expression _ value | print _ value => value.problems s
  | var name initializer =>
    s.redeclared name ++
      Expr.problems? ((s.bind name.lexeme false).initializing name) initializer
  | block _ body => problemsList (s.push []) body
  | ifThen _ condition thenBranch => condition.problems s ++ problems s thenBranch
  | ifElse _ condition thenBranch elseBranch =>
    condition.problems s ++ problems s thenBranch ++ problems (after s thenBranch) elseBranch
  | while_ _ condition body => condition.problems s ++ problems s body
  | function (.mk name parameters body) =>
    s.redeclared name ++
      functionProblems (s.bind name.lexeme true) .function (.mk name parameters body)
  | return_ keyword value => s.misplacedReturn keyword value ++ Expr.problems? s value
  | class_ _ name superclass methods =>
    s.redeclared name ++
      (match superclass with
       | some c => Surroundings.selfInherited name c ++ (s.bind name.lexeme true).misread c.name
       | none => []) ++
      methodsProblems ((s.bind name.lexeme true).ofMethods superclass.isSome) methods

def problemsList (s : Surroundings) : List RawStmt → List StaticError
  | [] => []
  | st :: ss => problems s st ++ problemsList (after s st) ss

def functionProblems (s : Surroundings) (activation : Activation) :
    RawFunction → List StaticError
  | .mk _ parameters body =>
    ({ s with activation }.push []).repeatedParameters parameters ++
      problemsList (s.entering activation parameters) body

def methodsProblems (s : Surroundings) : List RawFunction → List StaticError
  | [] => []
  | f :: fs => functionProblems s (Resolver.methodActivation f) f ++ methodsProblems s fs

end
end Stmt

namespace Scoping

def blame (s : Scoping) (errors : List StaticError) : Scoping :=
  { s with errors := errors.reverse ++ s.errors }

def move (s : Scoping) (t : Surroundings) : Scoping := { s with toSurroundings := t }

@[simp] theorem blame_nil (s : Scoping) : s.blame [] = s := rfl

@[simp] theorem blame_toSurroundings (s : Scoping) (es : List StaticError) :
    (s.blame es).toSurroundings = s.toSurroundings := rfl

@[simp] theorem blame_blame (s : Scoping) (es fs : List StaticError) :
    (s.blame es).blame fs = s.blame (es ++ fs) := by
  simp [blame]

@[simp] theorem move_toSurroundings (s : Scoping) (t : Surroundings) :
    (s.move t).toSurroundings = t := rfl

@[simp] theorem move_self (s : Scoping) : s.move s.toSurroundings = s := rfl

@[simp] theorem move_move (s : Scoping) (t u : Surroundings) : (s.move t).move u = s.move u := rfl

@[simp] theorem blame_move (s : Scoping) (es : List StaticError) (t : Surroundings) :
    (s.blame es).move t = (s.move t).blame es := rfl

end Scoping

namespace Surroundings

theorem bind_bind (s : Surroundings) (name : String) (a b : Bool) :
    (s.bind name a).bind name b = s.bind name b := by
  obtain ⟨scopes, pending, activation, context⟩ := s
  cases scopes with
  | nil => rfl
  | cons scope scopes => simp [bind, Bindings.put_put]

/-- What an initializer is known by does not outlast it. -/
theorem initializing_restored (s : Surroundings) (name : Token) :
    ({ s.initializing name with pending := s.pending } : Surroundings) = s := by
  obtain ⟨scopes, pending, activation, context⟩ := s
  cases scopes <;> rfl

def pop (s : Surroundings) : Surroundings := { s with scopes := s.scopes.tail }

@[simp] theorem pop_push (s : Surroundings) (initial : Bindings Bool) :
    (s.push initial).pop = s := rfl

@[simp] theorem pop_bind (s : Surroundings) (name : String) (ready : Bool) :
    (s.bind name ready).pop = s.pop := by
  obtain ⟨scopes, pending, activation, context⟩ := s
  cases scopes <;> rfl

@[simp] theorem pop_withParameters (s : Surroundings) (ps : List Token) :
    (s.withParameters ps).pop = s.pop := by
  induction ps generalizing s with
  | nil => rfl
  | cons p ps ih => exact (ih _).trans (pop_bind s p.lexeme true)

end Surroundings

namespace Stmt

@[simp] theorem pop_after (s : Surroundings) (st : RawStmt) : (after s st).pop = s.pop := by
  fun_induction after s st <;> simp_all

@[simp] theorem pop_afterList (s : Surroundings) (ss : List RawStmt) :
    (afterList s ss).pop = s.pop := by
  induction ss generalizing s with
  | nil => rfl
  | cons st ss ih => exact (ih _).trans (pop_after s st)

end Stmt

namespace Resolver

section
variable {α β : Type}

@[simp] theorem pure_run (a : α) (s : Scoping) : (pure a : Resolver α) s = (a, s) := rfl

@[simp] theorem bind_run (x : Resolver α) (f : α → Resolver β) (s : Scoping) :
    (x >>= f) s = f (x s).1 (x s).2 := rfl

@[simp] theorem map_run (f : α → β) (x : Resolver α) (s : Scoping) :
    (f <$> x) s = (f (x s).1, (x s).2) := rfl

@[simp] theorem get_run (s : Scoping) : (get : Resolver Scoping) s = (s, s) := rfl

@[simp] theorem modify_run (f : Scoping → Scoping) (s : Scoping) :
    (modify f : Resolver Unit) s = ((), f s) := rfl

theorem inScope_run (initial : Bindings Bool) (body : Resolver α) (s : Scoping) :
    inScope initial body s =
      let r := body (s.move (s.push initial))
      (r.1, r.2.move r.2.pop) := rfl

theorem inActivation_run (activation : Activation) (body : Resolver α) (s : Scoping) :
    inActivation activation body s =
      let r := body (s.move { s.toSurroundings with activation })
      (r.1, r.2.move { r.2.toSurroundings with activation := s.activation }) := rfl

theorem inContext_run (context : ClassContext) (body : Resolver α) (s : Scoping) :
    inContext context body s =
      let r := body (s.move { s.toSurroundings with context })
      (r.1, r.2.move { r.2.toSurroundings with context := s.context }) := rfl

theorem inInitializer_run (name : Token) (body : Resolver α) (s : Scoping) :
    inInitializer name body s =
      let r := body (s.move (s.initializing name))
      (r.1, r.2.move { r.2.toSurroundings with pending := s.pending }) := by
  obtain ⟨⟨scopes, pending, activation, context⟩, errors⟩ := s
  cases scopes <;> rfl

end

@[simp] theorem report_run (t : Token) (p : Problem) (s : Scoping) :
    report t p s = ((), s.blame [.atToken t p]) := rfl

@[simp] theorem hops_run (name : String) (s : Scoping) :
    hops name s = (s.toSurroundings.hops name, s) := rfl

theorem read_run (name : Token) (s : Scoping) :
    read name s =
      (s.toSurroundings.hops name.lexeme, s.blame (s.toSurroundings.misread name)) := by
  obtain ⟨⟨scopes, pending, activation, context⟩, errors⟩ := s
  cases scopes with
  | nil =>
    by_cases h : pending = some name.lexeme <;> simp [read, Surroundings.misread, h]
  | cons scope scopes =>
    by_cases h : scope.find? name.lexeme = some false <;> simp [read, Surroundings.misread, h]

theorem this_run (keyword : Token) (s : Scoping) :
    this keyword s =
      (if s.context = .outside then none else s.toSurroundings.hops keyword.lexeme,
        s.blame (s.toSurroundings.misusedThis keyword)) := by
  by_cases h : s.context = .outside <;> simp [this, Surroundings.misusedThis, h]

theorem super_run (keyword : Token) (s : Scoping) :
    super keyword s =
      (s.toSurroundings.hops keyword.lexeme,
        s.blame (s.toSurroundings.misusedSuper keyword)) := by
  cases h : s.context <;> simp [super, Surroundings.misusedSuper, h]

mutual

theorem expr_run (s : Scoping) (e : RawExpr) :
    expr e s = (e.bound s.toSurroundings, s.blame (e.problems s.toSurroundings)) := by
  cases e with
  | literal line value => rfl
  | grouping line inner => simp [expr, Expr.bound, Expr.problems, expr_run s inner]
  | unary operator right => simp [expr, Expr.bound, Expr.problems, expr_run s right]
  | binary left operator right =>
    simp [expr, Expr.bound, Expr.problems, expr_run _ left, expr_run _ right]
  | logical left operator right =>
    simp [expr, Expr.bound, Expr.problems, expr_run _ left, expr_run _ right]
  | read name target => simp [expr, Expr.bound, Expr.problems, read_run]
  | assign line name target value =>
    simp [expr, Expr.bound, Expr.problems, expr_run s value]
  | call callee paren arguments =>
    simp [expr, Expr.bound, Expr.problems, expr_run _ callee, exprs_run _ arguments]
  | get object name => simp [expr, Expr.bound, Expr.problems, expr_run s object]
  | set line object name value =>
    simp [expr, Expr.bound, Expr.problems, expr_run _ value, expr_run _ object]
  | this keyword target => simp [expr, Expr.bound, Expr.problems, this_run]
  | super keyword target method => simp [expr, Expr.bound, Expr.problems, super_run]

theorem exprs_run (s : Scoping) (es : List RawExpr) :
    exprs es s = (Expr.boundList s.toSurroundings es,
      s.blame (Expr.problemsList s.toSurroundings es)) := by
  cases es with
  | nil => rfl
  | cons e es => simp [exprs, Expr.boundList, Expr.problemsList, expr_run _ e, exprs_run _ es]

end

theorem expr?_run (s : Scoping) (e : Option RawExpr) :
    expr? e s = (e.map (Expr.bound s.toSurroundings),
      s.blame (Expr.problems? s.toSurroundings e)) := by
  cases e <;> simp [expr?, Expr.problems?, expr_run]

theorem bind_name_run (name : String) (ready : Bool) (s : Scoping) :
    bind name ready s = ((), s.move (s.toSurroundings.bind name ready)) := by
  obtain ⟨⟨scopes, pending, activation, context⟩, errors⟩ := s
  cases scopes <;> rfl

theorem declare_run (name : Token) (s : Scoping) :
    declare name s = ((), (s.move (s.toSurroundings.bind name.lexeme false)).blame
      (s.toSurroundings.redeclared name)) := by
  by_cases h : (s.scopes.head?.bind (·.find? name.lexeme)).isSome <;>
    simp [declare, Surroundings.redeclared, bind_name_run, h]

theorem define_run (name : Token) (s : Scoping) :
    define name s = ((), s.move (s.toSurroundings.bind name.lexeme true)) := by
  simp [define, bind_name_run]

theorem parameters_run (s : Scoping) (ps : List Token) :
    (forM ps fun p => do declare p; define p : Resolver Unit) s =
      ((), (s.move (s.toSurroundings.withParameters ps)).blame
        (s.toSurroundings.repeatedParameters ps)) := by
  induction ps generalizing s with
  | nil => rfl
  | cons p ps ih =>
    simp [List.forM_cons, declare_run, define_run, ih, Surroundings.bind_bind,
      Surroundings.withParameters, Surroundings.repeatedParameters]

theorem superclass_run (name : Token) (c : Superclass Unit) (s : Scoping) :
    superclass name c s = (c.bound s.toSurroundings, s.blame
      (Surroundings.selfInherited name c ++ s.toSurroundings.misread c.name)) := by
  by_cases h : c.name.lexeme = name.lexeme <;>
    simp [superclass, Surroundings.selfInherited, Superclass.bound, read_run, h]

mutual

theorem stmt_run (s : Scoping) (st : RawStmt) :
    stmt st s = (st.bound s.toSurroundings,
      (s.move (Stmt.after s.toSurroundings st)).blame (st.problems s.toSurroundings)) := by
  cases st with
  | expression line value => simp [stmt, Stmt.bound, Stmt.after, Stmt.problems, expr_run]
  | print line value => simp [stmt, Stmt.bound, Stmt.after, Stmt.problems, expr_run]
  | var name initializer =>
    cases initializer with
    | none =>
      simp [stmt, Stmt.bound, Stmt.after, Stmt.problems, declare_run, define_run,
        Surroundings.bind_bind, Expr.problems?]
    | some e =>
      simp [stmt, Stmt.bound, Stmt.after, Stmt.problems, declare_run, define_run,
        Expr.problems?, inInitializer_run, expr_run]
      rw [Surroundings.initializing_restored, Surroundings.bind_bind]
  | block line body =>
    simp [stmt, Stmt.bound, Stmt.after, Stmt.problems, inScope_run, stmts_run _ body]
  | ifThen line condition thenBranch =>
    simp [stmt, Stmt.bound, Stmt.after, Stmt.problems, expr_run, stmt_run _ thenBranch]
  | ifElse line condition thenBranch elseBranch =>
    simp [stmt, Stmt.bound, Stmt.after, Stmt.problems, expr_run, stmt_run _ thenBranch,
      stmt_run _ elseBranch]
  | while_ line condition body =>
    simp [stmt, Stmt.bound, Stmt.after, Stmt.problems, expr_run, stmt_run _ body]
  | function f =>
    obtain ⟨name, parameters, body⟩ := f
    simp [stmt, Stmt.bound, Stmt.after, Stmt.problems, declare_run, define_run,
      Surroundings.bind_bind, function_run _ .function (.mk name parameters body)]
  | return_ keyword value =>
    by_cases ha : s.activation = .topLevel <;>
      by_cases hv : value.isSome ∧ s.activation = .initializer <;>
      simp [stmt, Stmt.bound, Stmt.after, Stmt.problems, Surroundings.misplacedReturn, expr?_run,
        ha, hv]
  | class_ line name superclass methods =>
    cases superclass with
    | none =>
      simp [stmt, Stmt.bound, Stmt.after, Stmt.problems, declare_run, define_run,
        Surroundings.bind_bind, inContext_run, inScope_run, functions_run _ methods]
      rfl
    | some c =>
      simp [stmt, Stmt.bound, Stmt.after, Stmt.problems, declare_run, define_run,
        Surroundings.bind_bind, inContext_run, inScope_run, functions_run _ methods,
        superclass_run]
      rfl

theorem function_run (s : Scoping) (activation : Activation) (f : RawFunction) :
    function activation f s = (Stmt.functionBound s.toSurroundings activation f,
      s.blame (Stmt.functionProblems s.toSurroundings activation f)) := by
  obtain ⟨name, parameters, body⟩ := f
  simp [function, Stmt.functionBound, Stmt.functionProblems, inActivation_run, inScope_run,
    parameters_run, stmts_run _ body, Surroundings.entering]
  rfl

theorem functions_run (s : Scoping) (fs : List RawFunction) :
    functions fs s = (Stmt.methodsBound s.toSurroundings fs,
      s.blame (Stmt.methodsProblems s.toSurroundings fs)) := by
  cases fs with
  | nil => rfl
  | cons f fs =>
    simp [functions, Stmt.methodsBound, Stmt.methodsProblems, function_run _ _ f,
      functions_run _ fs]

theorem stmts_run (s : Scoping) (ss : List RawStmt) :
    stmts ss s = (Stmt.boundList s.toSurroundings ss,
      (s.move (Stmt.afterList s.toSurroundings ss)).blame
        (Stmt.problemsList s.toSurroundings ss)) := by
  cases ss with
  | nil => rfl
  | cons st ss =>
    simp [stmts, Stmt.boundList, Stmt.problemsList, Stmt.afterList, stmt_run _ st,
      stmts_run _ ss]

end

end Resolver

theorem Resolution.ofProgram_eq (program : List RawStmt) :
    Resolution.ofProgram program =
      ⟨Stmt.boundList .topLevel program, Stmt.problemsList .topLevel program⟩ := by
  have h := Resolver.stmts_run .topLevel program
  simp only [Resolution.ofProgram, StateT.run, h]
  simp [Scoping.blame, Scoping.topLevel, Scoping.move]

end Lox

import Lox.Proofs.Placement
import Lox.Proofs.Conduct

/-! Static validity, read off the tree alone. A use of a token is valid or not by what encloses it;
the resolver, which keeps track of its surroundings instead, finds the same uses wrong. -/

namespace Lox

/-- What may enclose a part of a program. -/
inductive Enclosure
  /-- The initializer of a variable. -/
  | initializer (name : String)
  /-- A block, or the parameters and the body of a function: the names declared there before. -/
  | scope (names : List String)
  | function
  | method (name : String)
  | class_ (isSubclass : Bool)
deriving DecidableEq

namespace Enclosure

def isScope : Enclosure → Bool
  | scope _ => true
  | _ => false

def isCallable : Enclosure → Bool
  | function | method _ => true
  | _ => false

def isClass : Enclosure → Bool
  | class_ _ => true
  | _ => false

end Enclosure

/-- What encloses a place, the innermost first. -/
abbrev Path := List Enclosure

/-- The path behind a declaration. The names at the top level are not kept. -/
def Path.declare (name : String) : Path → Path
  | .scope names :: path => .scope (names ++ [name]) :: path
  | path => path

def Path.declareAll (parameters : List Token) (path : Path) : Path :=
  parameters.foldl (fun path p => path.declare p.lexeme) path

/-- The uses of a token that may be invalid. -/
inductive Use
  | declaration
  | read
  | return_ (hasValue : Bool)
  | this
  | super
  /-- As the superclass of a class with this name. -/
  | superclass (name : String)

structure Site where
  path : Path
  token : Token
  use : Use

namespace Site

/-- What is wrong with a use, if anything is. -/
def problem? : Site → Option Problem
  | ⟨.scope names :: _, name, .declaration⟩ =>
    if name.lexeme ∈ names then some .alreadyDeclared else none
  | ⟨_, _, .declaration⟩ => none
  | ⟨path, name, .read⟩ =>
    if .initializer name.lexeme ∈ path then
      some (if path.any Enclosure.isScope then .localInOwnInitializer else .globalInOwnInitializer)
    else none
  | ⟨path, _, .return_ hasValue⟩ =>
    match path.find? Enclosure.isCallable with
    | none => some .returnOutsideFunction
    | some (.method name) =>
      if hasValue ∧ name = Function.initializerName then some .valueFromInitializer else none
    | some _ => none
  | ⟨path, _, .this⟩ => if path.any Enclosure.isClass then none else some .thisOutsideClass
  | ⟨path, _, .super⟩ =>
    match path.find? Enclosure.isClass with
    | none => some .superOutsideClass
    | some (.class_ false) => some .superWithoutSuperclass
    | some _ => none
  | ⟨_, token, .superclass name⟩ =>
    if token.lexeme = name then some .inheritsFromItself else none

def error? (s : Site) : Option StaticError := s.problem?.map (.atToken s.token)

/-- The messages about the sites, one for each that is wrong. -/
def errors (sites : List Site) : List StaticError := sites.filterMap error?

@[simp] theorem errors_nil : errors [] = [] := rfl

@[simp] theorem errors_cons (s : Site) (sites : List Site) :
    errors (s :: sites) = s.error?.toList ++ errors sites := by
  unfold errors
  cases h : s.error? <;> simp [h]

@[simp] theorem errors_append (sites others : List Site) :
    errors (sites ++ others) = errors sites ++ errors others := List.filterMap_append

end Site

namespace Expr

mutual

/-- The uses in an expression. The value assigned to a field is evaluated before the object. -/
def sites (path : Path) : RawExpr → List Site
  | literal .. => []
  | grouping _ inner => sites path inner
  | unary _ right => sites path right
  | binary left _ right | logical left _ right => sites path left ++ sites path right
  | read name _ => [⟨path, name, .read⟩]
  | assign _ _ _ value => sites path value
  | call callee _ arguments => sites path callee ++ sitesList path arguments
  | get object _ => sites path object
  | set _ object _ value => sites path value ++ sites path object
  | this keyword _ => [⟨path, keyword, .this⟩]
  | super keyword .. => [⟨path, keyword, .super⟩]

def sitesList (path : Path) : List RawExpr → List Site
  | [] => []
  | e :: es => sites path e ++ sitesList path es

end

def sites? (path : Path) : Option RawExpr → List Site
  | some e => e.sites path
  | none => []

end Expr

def Superclass.sites (path : Path) (name : String) : Option (Superclass Unit) → List Site
  | some c => [⟨path, c.name, .superclass name⟩, ⟨path, c.name, .read⟩]
  | none => []

def Path.parameterSites (path : Path) : List Token → List Site
  | [] => []
  | p :: ps => ⟨path, p, .declaration⟩ :: (path.declare p.lexeme).parameterSites ps

namespace Stmt

mutual

def sites (path : Path) : RawStmt → List Site
  | expression _ value | print _ value => value.sites path
  | var name initializer =>
    ⟨path, name, .declaration⟩ :: Expr.sites? (.initializer name.lexeme :: path) initializer
  | block _ body => sitesList (.scope [] :: path) body
  | ifThen _ condition thenBranch => condition.sites path ++ sites path thenBranch
  | ifElse _ condition thenBranch elseBranch =>
    condition.sites path ++ sites path thenBranch ++ sites path elseBranch
  | while_ _ condition body => condition.sites path ++ sites path body
  | function f =>
    ⟨path, f.name, .declaration⟩ :: functionSites (.function :: path.declare f.name.lexeme) f
  | return_ keyword value =>
    ⟨path, keyword, .return_ value.isSome⟩ :: Expr.sites? path value
  | class_ _ name superclass methods =>
    let path' := path.declare name.lexeme
    ⟨path, name, .declaration⟩ ::
      (Superclass.sites path' name.lexeme superclass ++
        methodSites (.class_ superclass.isSome :: path') methods)

/-- Statements one after another, each behind the declarations of those before. -/
def sitesList (path : Path) : List RawStmt → List Site
  | [] => []
  | s :: ss =>
    sites path s ++
      sitesList (s.declared?.elim path fun name => path.declare name.lexeme) ss

def functionSites (path : Path) : RawFunction → List Site
  | .mk _ parameters body =>
    let inside : Path := .scope [] :: path
    inside.parameterSites parameters ++ sitesList (inside.declareAll parameters) body

def methodSites (path : Path) : List RawFunction → List Site
  | [] => []
  | f :: fs => functionSites (.method f.name.lexeme :: path) f ++ methodSites path fs

end
end Stmt

namespace Path

def context (path : Path) : ClassContext :=
  match path.find? Enclosure.isClass with
  | some (.class_ true) => .subclass
  | some _ => .class_
  | none => .outside

def activation (path : Path) : Activation :=
  match path.find? Enclosure.isCallable with
  | some (.method name) => if name = Function.initializerName then .initializer else .method
  | some _ => .function
  | none => .topLevel

/-- The innermost scope holds the names that the path says; at the top level there is none. -/
inductive Holds : Path → List (Bindings Bool) → Prop
  | topLevel : Holds [] []
  | scope {names : List String} {path : Path} {scope : Bindings Bool}
    {scopes : List (Bindings Bool)}
    (names_ : ∀ x, (scope.find? x).isSome ↔ x ∈ names) :
    Holds (.scope names :: path) (scope :: scopes)

end Path

namespace Surroundings
variable {s : Surroundings} {path : Path}

/-- The surroundings judge the uses in an expression as the path does. -/
structure Sees (s : Surroundings) (path : Path) : Prop where
  read (t : Token) : s.misread t = (Site.error? ⟨path, t, .read⟩).toList
  this (t : Token) : s.misusedThis t = (Site.error? ⟨path, t, .this⟩).toList
  super (t : Token) : s.misusedSuper t = (Site.error? ⟨path, t, .super⟩).toList

/-- The surroundings are those of a statement on the path. -/
structure Stands (s : Surroundings) (path : Path) : Prop where
  context : s.context = path.context
  activation : s.activation = path.activation
  pending : s.pending = none
  settled : s.Settled
  plain : ∀ name, .initializer name ∉ path
  scopes : path.Holds s.scopes

theorem class_of_find? {e : Enclosure} (h : path.find? Enclosure.isClass = some e) :
    ∃ isSubclass, e = .class_ isSubclass := by
  have he := List.find?_some h
  cases e with
  | class_ isSubclass => exact ⟨isSubclass, rfl⟩
  | _ => cases he

theorem callable_of_find? {e : Enclosure} (h : path.find? Enclosure.isCallable = some e) :
    e = .function ∨ ∃ name, e = .method name := by
  have he := List.find?_some h
  cases e with
  | function => exact .inl rfl
  | method name => exact .inr ⟨name, rfl⟩
  | _ => cases he

theorem misusedThis_eq (h : s.context = path.context) (t : Token) :
    s.misusedThis t = (Site.error? ⟨path, t, .this⟩).toList := by
  unfold misusedThis
  rw [h, Path.context]
  cases hf : path.find? Enclosure.isClass with
  | none =>
    have hany : path.any Enclosure.isClass = false := by simpa using hf
    simp [Site.error?, Site.problem?, hany]
  | some e =>
    obtain ⟨isSubclass, rfl⟩ := class_of_find? hf
    have hany : path.any Enclosure.isClass = true :=
      List.any_eq_true.2 ⟨_, List.mem_of_find?_eq_some hf, rfl⟩
    cases isSubclass <;> simp [Site.error?, Site.problem?, hany]

theorem misusedSuper_eq (h : s.context = path.context) (t : Token) :
    s.misusedSuper t = (Site.error? ⟨path, t, .super⟩).toList := by
  unfold misusedSuper
  rw [h, Path.context]
  cases hf : path.find? Enclosure.isClass with
  | none => simp [Site.error?, Site.problem?, hf]
  | some e =>
    obtain ⟨isSubclass, rfl⟩ := class_of_find? hf
    cases isSubclass <;> simp [Site.error?, Site.problem?, hf]

namespace Stands

theorem misread (h : s.Stands path) (t : Token) :
    s.misread t = (Site.error? ⟨path, t, .read⟩).toList := by
  have hsite : Site.error? ⟨path, t, .read⟩ = none := by
    simp [Site.error?, Site.problem?, h.plain]
  rw [hsite]
  unfold Surroundings.misread
  have hsettled := h.settled t.lexeme
  cases hs : s.scopes with
  | nil => simp [h.pending]
  | cons scope scopes =>
    have hready : scope.find? t.lexeme ≠ some false := by
      simpa [unready, hs] using hsettled
    simp [hready]

theorem sees (h : s.Stands path) : s.Sees path :=
  ⟨h.misread, misusedThis_eq h.context, misusedSuper_eq h.context⟩

/-- In the initializer of a variable its name may not be read, and any other may as before. -/
theorem sees_initializing (h : s.Stands path) (name : Token) :
    ((s.bind name.lexeme false).initializing name).Sees (.initializer name.lexeme :: path) := by
  have hcontext : ((s.bind name.lexeme false).initializing name).context =
      Path.context (.initializer name.lexeme :: path) := by
    rw [context_initializing, context_bind, h.context]
    rfl
  refine ⟨fun t => ?_, misusedThis_eq hcontext, misusedSuper_eq hcontext⟩
  have hplain : Enclosure.initializer t.lexeme ∈ Enclosure.initializer name.lexeme :: path ↔
      name.lexeme = t.lexeme := by
    simp [h.plain, eq_comm]
  have hsettled := h.settled t.lexeme
  have hscopes := h.scopes
  obtain ⟨scopes, pending, activation, context⟩ := s
  cases hscopes with
  | topLevel =>
    by_cases hname : name.lexeme = t.lexeme
    · simp [Surroundings.misread, bind, initializing, Site.error?, Site.problem?, hname,
        Enclosure.isScope]
    · simp [Surroundings.misread, bind, initializing, Site.error?, Site.problem?, hname,
        Ne.symm hname]
  | @scope names path scope scopes _ =>
    have hready : scope.find? t.lexeme ≠ some false := by
      simpa [unready] using hsettled
    by_cases hname : name.lexeme = t.lexeme
    · simp [Surroundings.misread, bind, initializing, Site.error?, Site.problem?, hname,
        Bindings.find?_put, Enclosure.isScope]
    · have hout : Enclosure.initializer t.lexeme ∉ path := by
        simpa using h.plain t.lexeme
      simp [Surroundings.misread, bind, initializing, Site.error?, Site.problem?, hname,
        Ne.symm hname, Bindings.find?_put, hready, hout]

theorem misplacedReturn (h : s.Stands path) (keyword : Token) (value : Option RawExpr) :
    s.misplacedReturn keyword value =
      (Site.error? ⟨path, keyword, .return_ value.isSome⟩).toList := by
  unfold Surroundings.misplacedReturn
  rw [h.activation, Path.activation]
  cases hf : path.find? Enclosure.isCallable with
  | none => simp [Site.error?, Site.problem?, hf]
  | some e =>
    rcases callable_of_find? hf with rfl | ⟨name, rfl⟩
    · simp [Site.error?, Site.problem?, hf]
    · by_cases hname : name = Function.initializerName <;> cases value <;>
        simp [Site.error?, Site.problem?, hf, hname]

theorem redeclared (h : s.Stands path) (name : Token) :
    s.redeclared name = (Site.error? ⟨path, name, .declaration⟩).toList := by
  have hscopes := h.scopes
  obtain ⟨scopes, pending, activation, context⟩ := s
  cases hscopes with
  | topLevel => rfl
  | @scope names path scope scopes hnames =>
    by_cases hname : name.lexeme ∈ names
    · simp [Surroundings.redeclared, Site.error?, Site.problem?, hname, (hnames _).2 hname]
    · have hnone : ¬(scope.find? name.lexeme).isSome := fun h => hname ((hnames _).1 h)
      simp [Surroundings.redeclared, Site.error?, Site.problem?, hname, hnone]

theorem topLevel : Surroundings.topLevel.Stands [] where
  context := rfl
  activation := rfl
  pending := rfl
  settled := settled_topLevel
  plain := by simp
  scopes := .topLevel

theorem declare (h : s.Stands path) (name : String) :
    (s.bind name true).Stands (path.declare name) := by
  have hsettled := h.settled.bind name
  have hplain := h.plain
  have hcontext := h.context
  have hactivation := h.activation
  have hpending := h.pending
  have hscopes := h.scopes
  obtain ⟨scopes, pending, activation, context⟩ := s
  cases hscopes with
  | topLevel => exact h
  | @scope names path scope scopes hnames =>
    refine ⟨hcontext, hactivation, hpending, hsettled, ?_, .scope fun x => ?_⟩
    · simpa [Path.declare] using hplain
    · rw [Bindings.find?_put]
      by_cases hx : name = x
      · simp [hx]
      · simp [hx, Ne.symm hx, hnames]

theorem declareAll (h : s.Stands path) (parameters : List Token) :
    (s.withParameters parameters).Stands (path.declareAll parameters) := by
  induction parameters generalizing s path with
  | nil => exact h
  | cons p ps ih => exact ih (h.declare p.lexeme)

/-- Inside a scope of its own. -/
theorem push (hcontext : s.context = path.context) (hactivation : s.activation = path.activation)
    (hpending : s.pending = none) (hplain : ∀ name, .initializer name ∉ path) :
    (s.push []).Stands (.scope [] :: path) where
  context := hcontext
  activation := hactivation
  pending := hpending
  settled := settled_push (by simp)
  plain := by simpa using hplain
  scopes := .scope (by simp)

theorem after {T : Token → Prop} {st : RawStmt} (h : s.Stands path) (hst : st.Regular T) :
    (Stmt.after s st).Stands (st.declared?.elim path fun name => path.declare name.lexeme) := by
  cases hn : st.declared? with
  | none =>
    rw [Stmt.after_of_isPlain hst (Stmt.isPlain_of_not_declared hn)]
    exact h
  | some name =>
    rw [Stmt.after_of_declared hn]
    exact h.declare name.lexeme

theorem repeatedParameters (h : s.Stands path) (parameters : List Token) :
    s.repeatedParameters parameters = Site.errors (path.parameterSites parameters) := by
  induction parameters generalizing s path with
  | nil => rfl
  | cons p ps ih =>
    rw [Surroundings.repeatedParameters, Path.parameterSites, Site.errors_cons, h.redeclared p,
      ih (h.declare p.lexeme)]

end Stands
end Surroundings

namespace Expr
variable {s : Surroundings} {path : Path}

mutual

theorem problems_eq (h : s.Sees path) (e : RawExpr) :
    e.problems s = Site.errors (e.sites path) := by
  cases e with
  | literal => rfl
  | grouping line inner => exact problems_eq h inner
  | unary operator right => exact problems_eq h right
  | binary left operator right =>
    rw [problems, sites, Site.errors_append, problems_eq h left, problems_eq h right]
  | logical left operator right =>
    rw [problems, sites, Site.errors_append, problems_eq h left, problems_eq h right]
  | read name target => simpa [problems, sites] using h.read name
  | assign line name target value => exact problems_eq h value
  | call callee paren arguments =>
    rw [problems, sites, Site.errors_append, problems_eq h callee, problemsList_eq h arguments]
  | get object name => exact problems_eq h object
  | set line object name value =>
    rw [problems, sites, Site.errors_append, problems_eq h value, problems_eq h object]
  | this keyword target => simpa [problems, sites] using h.this keyword
  | super keyword target method => simpa [problems, sites] using h.super keyword

theorem problemsList_eq (h : s.Sees path) (es : List RawExpr) :
    problemsList s es = Site.errors (sitesList path es) := by
  cases es with
  | nil => rfl
  | cons e es =>
    rw [problemsList, sitesList, Site.errors_append, problems_eq h e, problemsList_eq h es]

end

theorem problems?_eq (h : s.Sees path) (e : Option RawExpr) :
    problems? s e = Site.errors (sites? path e) := by
  cases e with
  | none => rfl
  | some e => exact problems_eq h e

end Expr

theorem Superclass.problems_eq {s : Surroundings} {path : Path} (h : s.Stands path) (name : Token)
    (superclass : Option (Superclass Unit)) :
    (match superclass with
      | some c => Surroundings.selfInherited name c ++ s.misread c.name
      | none => []) = Site.errors (Superclass.sites path name.lexeme superclass) := by
  cases superclass with
  | none => rfl
  | some c =>
    have hself : Surroundings.selfInherited name c =
        (Site.error? ⟨path, c.name, .superclass name.lexeme⟩).toList := by
      by_cases hname : c.name.lexeme = name.lexeme <;>
        simp [Surroundings.selfInherited, Site.error?, Site.problem?, hname]
    simp [sites, hself, h.misread]

namespace Stmt
variable {T : Token → Prop}

mutual

theorem problems_eq {s : Surroundings} {path : Path} (h : s.Stands path) (st : RawStmt)
    (hst : st.Regular T) : st.problems s = Site.errors (st.sites path) := by
  cases st with
  | expression line value => exact value.problems_eq h.sees
  | print line value => exact value.problems_eq h.sees
  | var name initializer =>
    rw [problems, sites, Site.errors_cons, h.redeclared,
      Expr.problems?_eq (h.sees_initializing name)]
  | block line body =>
    have hinside := Surroundings.Stands.push h.context h.activation h.pending h.plain
    exact problemsList_eq hinside body hst
  | ifThen line condition thenBranch =>
    rw [problems, sites, Site.errors_append, condition.problems_eq h.sees,
      problems_eq h thenBranch hst.2.1]
  | ifElse line condition thenBranch elseBranch =>
    rw [problems, sites, Site.errors_append, Site.errors_append, condition.problems_eq h.sees,
      problems_eq h thenBranch hst.2.1.1, after_of_isPlain hst.2.1.1 hst.2.1.2,
      problems_eq h elseBranch hst.2.2.1]
  | while_ line condition body =>
    rw [problems, sites, Site.errors_append, condition.problems_eq h.sees,
      problems_eq h body hst.2.1]
  | function f =>
    have hd := h.declare f.name.lexeme
    have hf : functionProblems (s.bind f.name.lexeme true) .function f =
        Site.errors (functionSites (.function :: path.declare f.name.lexeme) f) := by
      apply functionProblems_eq
      · exact hd.context
      · rfl
      · exact hd.pending
      · simpa using hd.plain
      · exact hst
    obtain ⟨name, parameters, body⟩ := f
    rw [problems, sites, Site.errors_cons, h.redeclared]
    exact congrArg _ hf
  | return_ keyword value =>
    rw [problems, sites, Site.errors_cons, h.misplacedReturn, Expr.problems?_eq h.sees]
  | class_ line name superclass methods =>
    have hd := h.declare name.lexeme
    have hcontext : ((s.bind name.lexeme true).ofMethods superclass.isSome).context =
        Path.context (.class_ superclass.isSome :: path.declare name.lexeme) := by
      cases superclass <;> rfl
    have hpending : ((s.bind name.lexeme true).ofMethods superclass.isSome).pending = none := by
      cases superclass <;> exact hd.pending
    have hmethods := methodsProblems_eq hcontext hpending (by simpa using hd.plain) methods hst.2.2
    show s.redeclared name ++ _ ++ methodsProblems _ methods = _
    rw [sites, Site.errors_cons, Site.errors_append, h.redeclared, hmethods, List.append_assoc]
    exact congrArg (_ ++ ·) (congrArg (· ++ _) (Superclass.problems_eq hd name superclass))

theorem problemsList_eq {s : Surroundings} {path : Path} (h : s.Stands path)
    (ss : List RawStmt) (hss : RegularList T ss) :
    problemsList s ss = Site.errors (sitesList path ss) := by
  cases ss with
  | nil => rfl
  | cons st ss =>
    rw [problemsList, sitesList, Site.errors_append, problems_eq h st hss.1,
      problemsList_eq (h.after hss.1) ss hss.2]

theorem functionProblems_eq {s : Surroundings} {path : Path} {activation : Activation}
    (hcontext : s.context = path.context) (hactivation : activation = path.activation)
    (hpending : s.pending = none) (hplain : ∀ name, .initializer name ∉ path) (f : RawFunction)
    (hf : FunctionRegular T f) :
    functionProblems s activation f = Site.errors (functionSites path f) := by
  obtain ⟨name, parameters, body⟩ := f
  have hinside : ({ s with activation }.push []).Stands (.scope [] :: path) :=
    .push hcontext hactivation hpending hplain
  rw [functionProblems, functionSites, Site.errors_append, hinside.repeatedParameters,
    Surroundings.entering, problemsList_eq (hinside.declareAll parameters) body hf.2.2]

theorem methodsProblems_eq {s : Surroundings} {path : Path} (hcontext : s.context = path.context)
    (hpending : s.pending = none) (hplain : ∀ name, .initializer name ∉ path)
    (fs : List RawFunction) (hfs : MethodsRegular T fs) :
    methodsProblems s fs = Site.errors (methodSites path fs) := by
  cases fs with
  | nil => rfl
  | cons f fs =>
    let inside : Path := .method f.name.lexeme :: path
    have hactivation : Resolver.methodActivation f = inside.activation := by
      by_cases hname : f.name.lexeme = Function.initializerName <;>
        simp [Resolver.methodActivation, Function.isInitializer, Path.activation, inside,
          List.find?_cons, Enclosure.isCallable, hname]
    have hf : functionProblems s (Resolver.methodActivation f) f =
        Site.errors (functionSites inside f) := by
      apply functionProblems_eq
      · exact hcontext
      · exact hactivation
      · exact hpending
      · simpa [inside] using hplain
      · exact hfs.1
    rw [methodsProblems, methodSites, Site.errors_append, hf,
      methodsProblems_eq hcontext hpending hplain fs hfs.2]

end
end Stmt

/-- The resolver finds one thing wrong for each invalid use in a parsed program, at its token, and
nothing else. -/
theorem Resolution.errors_eq (tokens : List Token) :
    (Resolution.ofProgram (Parse.program tokens).value).errors =
      Site.errors (Stmt.sitesList [] (Parse.program tokens).value) := by
  have hregular : Stmt.RegularList (fun _ => True) (Parse.program tokens).value :=
    Parse.program_regular fun _ _ => trivial
  rw [Resolution.ofProgram_eq]
  exact Stmt.problemsList_eq .topLevel _ hregular

end Lox

import Lox.Machine.Evaluation
import Lox.Proofs.Erasure

/-! Lines numbered anew. All that carries a line, from tokens up to whole machines, can be given
other line numbers; nothing that is not a line changes. -/

namespace Lox
variable {ρ ε ρ' ε' : Type} (φ ψ : Nat → Nat)

namespace Token

def renumber (t : Token) : Token := { t with position := ⟨φ t.line, t.position.column⟩ }

@[simp] theorem kind_renumber (t : Token) : (t.renumber φ).kind = t.kind := rfl

@[simp] theorem lexeme_renumber (t : Token) : (t.renumber φ).lexeme = t.lexeme := rfl

@[simp] theorem line_renumber (t : Token) : (t.renumber φ).line = φ t.line := rfl

@[simp] theorem renumber_self : renumber (fun line => line) = fun t => t := rfl

@[simp] theorem renumber_renumber (t : Token) :
    (t.renumber φ).renumber ψ = t.renumber (ψ ∘ φ) := rfl

end Token

namespace Expr

mutual

def renumber : Expr ρ → Expr ρ
  | literal line value => literal (φ line) value
  | grouping line inner => grouping (φ line) (renumber inner)
  | unary operator right => unary (operator.renumber φ) (renumber right)
  | binary left operator right =>
    binary (renumber left) (operator.renumber φ) (renumber right)
  | logical left operator right =>
    logical (renumber left) (operator.renumber φ) (renumber right)
  | read name target => read (name.renumber φ) target
  | assign line name target value =>
    assign (φ line) (name.renumber φ) target (renumber value)
  | call callee paren arguments =>
    call (renumber callee) (paren.renumber φ) (renumberList arguments)
  | get object name => get (renumber object) (name.renumber φ)
  | set line object name value =>
    set (φ line) (renumber object) (name.renumber φ) (renumber value)
  | this keyword target => this (keyword.renumber φ) target
  | super keyword target method => super (keyword.renumber φ) target (method.renumber φ)

def renumberList : List (Expr ρ) → List (Expr ρ)
  | [] => []
  | e :: es => renumber e :: renumberList es

end

theorem renumberList_eq_map (es : List (Expr ρ)) : renumberList φ es = es.map (renumber φ) := by
  induction es with
  | nil => rfl
  | cons e es ih => rw [renumberList, ih, List.map_cons]

mutual

theorem renumber_self (e : Expr ρ) : e.renumber (fun line => line) = e := by
  cases e with
  | grouping line inner => simp [renumber, renumber_self inner]
  | unary operator right => simp [renumber, renumber_self right]
  | binary left operator right => simp [renumber, renumber_self left, renumber_self right]
  | logical left operator right => simp [renumber, renumber_self left, renumber_self right]
  | assign line name _ value => simp [renumber, renumber_self value]
  | call callee paren arguments =>
    simp [renumber, renumber_self callee, renumberList_self arguments]
  | get object name => simp [renumber, renumber_self object]
  | set line object name value => simp [renumber, renumber_self object, renumber_self value]
  | _ => simp [renumber]

theorem renumberList_self (es : List (Expr ρ)) : renumberList (fun line => line) es = es := by
  cases es with
  | nil => rfl
  | cons e es => simp [renumberList, renumber_self e, renumberList_self es]

end

mutual

theorem renumber_renumber (e : Expr ρ) :
    (e.renumber φ).renumber ψ = e.renumber (ψ ∘ φ) := by
  cases e with
  | grouping line inner => simp [renumber, renumber_renumber inner]
  | unary operator right => simp [renumber, renumber_renumber right]
  | binary left operator right =>
    simp [renumber, renumber_renumber left, renumber_renumber right]
  | logical left operator right =>
    simp [renumber, renumber_renumber left, renumber_renumber right]
  | assign line name _ value => simp [renumber, renumber_renumber value]
  | call callee paren arguments =>
    simp [renumber, renumber_renumber callee, renumberList_renumberList arguments]
  | get object name => simp [renumber, renumber_renumber object]
  | set line object name value =>
    simp [renumber, renumber_renumber object, renumber_renumber value]
  | _ => simp [renumber]

theorem renumberList_renumberList (es : List (Expr ρ)) :
    renumberList ψ (renumberList φ es) = renumberList (ψ ∘ φ) es := by
  cases es with
  | nil => rfl
  | cons e es =>
    simp [renumberList, renumber_renumber e, renumberList_renumberList es]

end
end Expr

def StaticError.renumber (e : StaticError) : StaticError := { e with line := φ e.line }

def Superclass.renumber (c : Superclass ρ) : Superclass ρ := { c with name := c.name.renumber φ }

@[simp] theorem Superclass.name_renumber (c : Superclass ρ) :
    (c.renumber φ).name = c.name.renumber φ := rfl

namespace Stmt

mutual

def renumber : Stmt ρ → Stmt ρ
  | expression line value => expression (φ line) (value.renumber φ)
  | print line value => print (φ line) (value.renumber φ)
  | var name initializer => var (name.renumber φ) (initializer.map (Expr.renumber φ))
  | block line body => block (φ line) (renumberList body)
  | ifThen line condition thenBranch =>
    ifThen (φ line) (condition.renumber φ) (renumber thenBranch)
  | ifElse line condition thenBranch elseBranch =>
    ifElse (φ line) (condition.renumber φ) (renumber thenBranch) (renumber elseBranch)
  | while_ line condition body => while_ (φ line) (condition.renumber φ) (renumber body)
  | function declaration => function (renumberFunction declaration)
  | return_ keyword value => return_ (keyword.renumber φ) (value.map (Expr.renumber φ))
  | class_ line name superclass methods =>
    class_ (φ line) (name.renumber φ) (superclass.map (Superclass.renumber φ))
      (renumberFunctions methods)

def renumberList : List (Stmt ρ) → List (Stmt ρ)
  | [] => []
  | s :: ss => renumber s :: renumberList ss

def renumberFunction : Function ρ → Function ρ
  | .mk name parameters body =>
    .mk (name.renumber φ) (parameters.map (Token.renumber φ)) (renumberList body)

def renumberFunctions : List (Function ρ) → List (Function ρ)
  | [] => []
  | f :: fs => renumberFunction f :: renumberFunctions fs

end

theorem line_renumber (s : Stmt ρ) : (s.renumber φ).line = φ s.line := by
  cases s with
  | function f => cases f; rfl
  | _ => rfl

theorem kind_renumber (s : Stmt ρ) : (s.renumber φ).kind = s.kind := by cases s <;> rfl

theorem renumberList_eq_map (ss : List (Stmt ρ)) : renumberList φ ss = ss.map (renumber φ) := by
  induction ss with
  | nil => rfl
  | cons s ss ih => rw [renumberList, ih, List.map_cons]

theorem renumberFunctions_eq_map (fs : List (Function ρ)) :
    renumberFunctions φ fs = fs.map (renumberFunction φ) := by
  induction fs with
  | nil => rfl
  | cons f fs ih => rw [renumberFunctions, ih, List.map_cons]

mutual

theorem renumber_self (s : Stmt ρ) : s.renumber (fun line => line) = s := by
  cases s with
  | expression line value => simp [renumber, Expr.renumber_self]
  | print line value => simp [renumber, Expr.renumber_self]
  | var name initializer => cases initializer <;> simp [renumber, Expr.renumber_self]
  | block line body => simp [renumber, renumberList_self body]
  | ifThen line condition thenBranch =>
    simp [renumber, Expr.renumber_self, renumber_self thenBranch]
  | ifElse line condition thenBranch elseBranch =>
    simp [renumber, Expr.renumber_self, renumber_self thenBranch, renumber_self elseBranch]
  | while_ line condition body => simp [renumber, Expr.renumber_self, renumber_self body]
  | function f => simp [renumber, renumberFunction_self f]
  | return_ keyword value => cases value <;> simp [renumber, Expr.renumber_self]
  | class_ line name superclass methods =>
    cases superclass <;> simp [renumber, Superclass.renumber, renumberFunctions_self methods]

theorem renumberList_self (ss : List (Stmt ρ)) : renumberList (fun line => line) ss = ss := by
  cases ss with
  | nil => rfl
  | cons s ss => simp [renumberList, renumber_self s, renumberList_self ss]

theorem renumberFunction_self (f : Function ρ) : renumberFunction (fun line => line) f = f := by
  obtain ⟨name, parameters, body⟩ := f
  simp [renumberFunction, renumberList_self body]

theorem renumberFunctions_self (fs : List (Function ρ)) :
    renumberFunctions (fun line => line) fs = fs := by
  cases fs with
  | nil => rfl
  | cons f fs => simp [renumberFunctions, renumberFunction_self f, renumberFunctions_self fs]

end

mutual

theorem renumber_renumber (s : Stmt ρ) :
    (s.renumber φ).renumber ψ = s.renumber (ψ ∘ φ) := by
  cases s with
  | expression line value => simp [renumber, Expr.renumber_renumber]
  | print line value => simp [renumber, Expr.renumber_renumber]
  | var name initializer => cases initializer <;> simp [renumber, Expr.renumber_renumber]
  | block line body => simp [renumber, renumberList_renumberList body]
  | ifThen line condition thenBranch =>
    simp [renumber, Expr.renumber_renumber, renumber_renumber thenBranch]
  | ifElse line condition thenBranch elseBranch =>
    simp [renumber, Expr.renumber_renumber, renumber_renumber thenBranch,
      renumber_renumber elseBranch]
  | while_ line condition body =>
    simp [renumber, Expr.renumber_renumber, renumber_renumber body]
  | function f => simp [renumber, renumberFunction_renumberFunction f]
  | return_ keyword value => cases value <;> simp [renumber, Expr.renumber_renumber]
  | class_ line name superclass methods =>
    cases superclass <;>
      simp [renumber, Superclass.renumber, renumberFunctions_renumberFunctions methods]

theorem renumberList_renumberList (ss : List (Stmt ρ)) :
    renumberList ψ (renumberList φ ss) = renumberList (ψ ∘ φ) ss := by
  cases ss with
  | nil => rfl
  | cons s ss => simp [renumberList, renumber_renumber s, renumberList_renumberList ss]

theorem renumberFunction_renumberFunction (f : Function ρ) :
    renumberFunction ψ (renumberFunction φ f) = renumberFunction (ψ ∘ φ) f := by
  obtain ⟨name, parameters, body⟩ := f
  simp [renumberFunction, renumberList_renumberList body, Function.comp_def]

theorem renumberFunctions_renumberFunctions (fs : List (Function ρ)) :
    renumberFunctions ψ (renumberFunctions φ fs) = renumberFunctions (ψ ∘ φ) fs := by
  cases fs with
  | nil => rfl
  | cons f fs =>
    simp [renumberFunctions, renumberFunction_renumberFunction f,
      renumberFunctions_renumberFunctions fs]

end
end Stmt

namespace Bindings
variable {α β γ : Type} (f : α → β) (g : β → γ)

@[simp] theorem mapValues_nil : mapValues f [] = [] := rfl

theorem mapValues_self : mapValues (fun v : α => v) = fun b => b := by
  funext b
  simp [mapValues]

theorem mapValues_mapValues (b : Bindings α) :
    (b.mapValues f).mapValues g = b.mapValues (g ∘ f) := by
  simp [mapValues]

theorem find?_mapValues (b : Bindings α) (x : String) :
    (b.mapValues f).find? x = (b.find? x).map f := by
  induction b with
  | nil => rfl
  | cons p b ih =>
    obtain ⟨y, v⟩ := p
    have ih : Bindings.find? (List.map _ b) x = _ := ih
    rw [mapValues, List.map_cons, find?_cons, find?_cons, ih]
    split <;> rfl

theorem put_mapValues (b : Bindings α) (x : String) (v : α) :
    (b.mapValues f).put x (f v) = (b.put x v).mapValues f := by
  induction b with
  | nil => rfl
  | cons p b ih =>
    obtain ⟨y, w⟩ := p
    have ih : Bindings.put (List.map _ b) x (f v) = _ := ih
    simp only [mapValues, List.map_cons, put] at ih ⊢
    split
    · rfl
    · rw [ih, List.map_cons]

theorem ofPairs_map (pairs : List (String × α)) :
    ofPairs (pairs.map fun p => (p.1, f p.2)) = (ofPairs pairs).mapValues f := by
  suffices h : ∀ b : Bindings α,
      (pairs.map fun p => (p.1, f p.2)).foldl (fun b p => put b p.1 p.2) (b.mapValues f) =
        (pairs.foldl (fun b p => put b p.1 p.2) b).mapValues f from h []
  induction pairs with
  | nil => exact fun b => rfl
  | cons p pairs ih =>
    intro b
    rw [List.map_cons, List.foldl_cons, List.foldl_cons, put_mapValues, ih]

end Bindings

namespace Class

/-- The class with each of its methods, inherited ones included, put through `g`. -/
def map (g : Closure ρ ε → Closure ρ' ε') : Class ρ ε → Class ρ' ε'
  | root id name methods => root id name (methods.mapValues g)
  | derived id name methods superclass =>
    derived id name (methods.mapValues g) (superclass.map g)

variable (g : Closure ρ ε → Closure ρ' ε') (c : Class ρ ε)

@[simp] theorem id_map : (c.map g).id = c.id := by cases c <;> rfl

@[simp] theorem name_map : (c.map g).name = c.name := by cases c <;> rfl

theorem findMethod_map (x : String) : (c.map g).findMethod x = (c.findMethod x).map g := by
  induction c with
  | root id name methods => exact Bindings.find?_mapValues g methods x
  | derived id name methods superclass ih =>
    simp only [map, findMethod, Bindings.find?_mapValues]
    cases Bindings.find? methods x with
    | some f => rfl
    | none => exact ih

theorem arity_map (hg : ∀ f, (g f).arity = f.arity) : (c.map g).arity = c.arity := by
  unfold arity initializer
  rw [findMethod_map, Option.map_map, Function.comp_def]
  simp only [hg]

theorem map_self : c.map (fun f => f) = c := by
  induction c with
  | root id name methods => rw [map, Bindings.mapValues_self]
  | derived id name methods superclass ih => rw [map, Bindings.mapValues_self, ih]

theorem map_map {ρ'' ε'' : Type} (h : Closure ρ' ε' → Closure ρ'' ε'') :
    (c.map g).map h = c.map (h ∘ g) := by
  induction c with
  | root id name methods => simp only [map, Bindings.mapValues_mapValues]
  | derived id name methods superclass ih => simp only [map, Bindings.mapValues_mapValues, ih]

end Class

namespace Value

/-- The value with each function in it put through `g`. -/
def map (g : Closure ρ ε → Closure ρ' ε') : Value ρ ε → Value ρ' ε'
  | nil => nil
  | bool value => bool value
  | number value => number value
  | string value => string value
  | native f => native f
  | function f => function (g f)
  | class_ c => class_ (c.map g)
  | object ref c => object ref (c.map g)

variable (g : Closure ρ ε → Closure ρ' ε') (v w : Value ρ ε)

@[simp] theorem isTruthy_map : (v.map g).isTruthy = v.isTruthy := by cases v <;> rfl

@[simp] theorem decides_map (kind : Kind) : decides kind (v.map g) = decides kind v := by
  simp [decides]

theorem text_map (hg : ∀ f, (g f).name = f.name) : (v.map g).text = v.text := by
  cases v with
  | bool b => cases b <;> rfl
  | function f => simp [map, text, hg]
  | class_ c => simp [map, text]
  | object ref c => simp [map, text]
  | _ => rfl

theorem arity?_map (hg : ∀ f, (g f).arity = f.arity) : (v.map g).arity? = v.arity? := by
  cases v with
  | native f => cases f; rfl
  | function f => simp [map, arity?, hg]
  | class_ c => simp [map, arity?, c.arity_map g hg]
  | _ => rfl

theorem equal_map (hg : ∀ f, (g f).id = f.id) : equal (v.map g) (w.map g) = equal v w := by
  cases v <;> cases w <;> simp [map, equal, hg]

theorem unary_map (kind : Kind) (lexeme : String) :
    Value.unary kind lexeme (v.map g) = (Value.unary kind lexeme v).map (map g) := by
  by_cases hb : kind = .bang
  · subst hb
    exact congrArg (fun b => Except.ok (bool !b)) (isTruthy_map g v)
  by_cases hm : kind = .minus
  · subst hm
    cases v <;> rfl
  have hother {ρ ε : Type} (v : Value ρ ε) :
      Value.unary kind lexeme v = .error (.unknownUnary lexeme) := by
    unfold Value.unary
    split <;> simp_all
  rw [hother, hother]
  rfl

theorem add_map : add (v.map g) (w.map g) = (add v w).map (map g) := by
  cases v <;> cases w <;> rfl

theorem arithmetic_map (kind : Kind) :
    arithmetic kind = (arithmetic kind).map fun f x y => (f x y : Value ρ ε).map g := by
  cases kind <;> rfl

theorem binary_map (hg : ∀ f, (g f).id = f.id) (kind : Kind) (lexeme : String) :
    binary kind lexeme (v.map g) (w.map g) = (binary kind lexeme v w).map (map g) := by
  unfold Value.binary
  split
  · rw [equal_map g v w hg]
    rfl
  · rw [equal_map g v w hg]
    rfl
  · exact add_map g v w
  · rw [arithmetic_map g kind]
    cases arithmetic kind with
    | none => cases v <;> cases w <;> rfl
    | some f => cases v <;> cases w <;> rfl

theorem map_self : v.map (fun f => f) = v := by
  cases v <;> simp [map, Class.map_self]

theorem map_map {ρ'' ε'' : Type} (h : Closure ρ' ε' → Closure ρ'' ε'') :
    (v.map g).map h = v.map (h ∘ g) := by
  cases v <;> simp [map, Class.map_map]

end Value

theorem Function.isInitializer_renumber (f : Function ρ) :
    (Stmt.renumberFunction φ f).isInitializer = f.isInitializer := by
  cases f
  rfl

namespace Closure

def renumber (f : Closure ρ ε) : Closure ρ ε :=
  { f with declaration := Stmt.renumberFunction φ f.declaration }

variable (f : Closure ρ ε)

@[simp] theorem name_renumber : (f.renumber φ).name = f.name := by
  obtain ⟨id, ⟨name, parameters, body⟩, environment, isInitializer⟩ := f
  rfl

@[simp] theorem arity_renumber : (f.renumber φ).arity = f.arity := by
  obtain ⟨id, ⟨name, parameters, body⟩, environment, isInitializer⟩ := f
  exact List.length_map _

theorem renumber_self : (renumber (fun line => line) : Closure ρ ε → Closure ρ ε) = fun f => f := by
  funext f
  simp [renumber, Stmt.renumberFunction_self]

theorem renumber_comp :
    (renumber ψ : Closure ρ ε → Closure ρ ε) ∘ renumber φ = renumber (ψ ∘ φ) := by
  funext f
  simp [renumber, Stmt.renumberFunction_renumberFunction]

end Closure

namespace Value

abbrev renumber : Value ρ ε → Value ρ ε := map (Closure.renumber φ)

theorem renumber_self : (renumber (fun line => line) : Value ρ ε → Value ρ ε) = fun v => v := by
  funext v
  rw [renumber, Closure.renumber_self, map_self]

theorem renumber_comp :
    (renumber ψ : Value ρ ε → Value ρ ε) ∘ renumber φ = renumber (ψ ∘ φ) := by
  funext v
  rw [Function.comp_apply, renumber, renumber, map_map, Closure.renumber_comp]

end Value

def RuntimeError.renumber (e : RuntimeError) : RuntimeError :=
  { e with line := e.line.map fun line => (φ line.toNat : Int) }

def Failure.renumber : Failure → Failure
  | runtime e => runtime (e.renumber φ)
  | exhausted => exhausted
  | outOfTurns => outOfTurns
  | fault f => fault f

def Completion.renumber : Completion → Completion
  | normal => normal
  | returned value => returned (value.renumber φ)

namespace Event

/-- A text that was reported stays as it was written. -/
def renumber : Event → Event
  | traced line kind => traced (φ line) kind
  | e => e

theorem renumber_self : renumber (fun line => line) = fun e => e := by
  funext e
  cases e <;> rfl

theorem renumber_comp : renumber ψ ∘ renumber φ = renumber (ψ ∘ φ) := by
  funext e
  cases e <;> rfl

theorem output_renumber : output ∘ renumber φ = output := by
  funext e
  cases e <;> rfl

end Event

namespace Environments

def renumber (s : Environments) : Environments :=
  ⟨s.frames.map fun frame => { frame with bindings := frame.bindings.mapValues (Value.renumber φ) }⟩

variable (s : Environments) (e : Nat)

theorem renumber_self : s.renumber (fun line => line) = s := by
  simp [renumber, Value.renumber_self, Bindings.mapValues_self]

theorem renumber_renumber : (s.renumber φ).renumber ψ = s.renumber (ψ ∘ φ) := by
  simp [renumber, Bindings.mapValues_mapValues, Value.renumber_comp]

theorem bindings_renumber :
    (s.renumber φ).bindings e = (s.bindings e).mapValues (Value.renumber φ) := by
  simp only [bindings, renumber, Array.getElem?_map]
  cases s.frames[e]? <;> rfl

theorem find?_renumber (x : String) :
    (s.renumber φ).find? e x = (s.find? e x).map (Value.renumber φ) := by
  rw [find?, bindings_renumber, Bindings.find?_mapValues, find?]

theorem link?_renumber : (s.renumber φ).link? e = s.link? e := by
  simp only [link?, renumber, Array.getElem?_map]
  cases s.frames[e]? <;> rfl

theorem owner?_renumber (x : String) : (s.renumber φ).owner? x e = s.owner? x e :=
  owner?_congr (link?_renumber φ s) (fun e => by rw [find?_renumber, Option.isSome_map]) e

theorem get?_renumber (x : String) :
    (s.renumber φ).get? e x = (s.get? e x).map (Value.renumber φ) := by
  unfold get?
  rw [owner?_renumber]
  cases s.owner? x e with
  | none => rfl
  | some owner => exact find?_renumber φ s owner x

theorem ancestor?_renumber (distance : Nat) :
    (s.renumber φ).ancestor? e distance = s.ancestor? e distance :=
  ancestor?_congr (link?_renumber φ s) e distance

theorem ancestor_renumber (distance : Nat) :
    (s.renumber φ).ancestor e distance = s.ancestor e distance := by
  simp only [ancestor, ancestor?_renumber]

theorem getAt_renumber (distance : Nat) (x : String) :
    (s.renumber φ).getAt e distance x = (s.getAt e distance x).map (Value.renumber φ) := by
  unfold getAt
  rw [ancestor_renumber]
  cases s.ancestor e distance with
  | error f => rfl
  | ok a =>
    dsimp only
    rw [find?_renumber]
    cases s.find? a x <;> rfl

theorem define_renumber (x : String) (v : Value) :
    (s.renumber φ).define e x (v.renumber φ) = (s.define e x v).renumber φ := by
  simp only [define, renumber]
  congr 1
  apply Array.ext_getElem?
  intro i
  simp only [Array.getElem?_modify, Array.getElem?_map]
  by_cases h : e = i
  · simp only [if_pos h]
    cases s.frames[i]? with
    | none => rfl
    | some frame => simp [Bindings.put_mapValues]
  · simp only [if_neg h]

theorem create_renumber (enclosing : Option Nat) (b : Bindings Value) :
    (s.renumber φ).create enclosing (b.mapValues (Value.renumber φ)) =
      ((s.create enclosing b).1, (s.create enclosing b).2.renumber φ) := by
  simp [create, renumber]

end Environments

namespace Machine

def renumber (m : Machine) : Machine :=
  { m with
    environments := m.environments.renumber φ
    objects := m.objects.map (Bindings.mapValues (Value.renumber φ))
    events := m.events.map (Event.renumber φ) }

variable (m : Machine)

@[simp] theorem environments_renumber :
    (m.renumber φ).environments = m.environments.renumber φ := rfl

@[simp] theorem current_renumber : (m.renumber φ).current = m.current := rfl

@[simp] theorem callDepth_renumber : (m.renumber φ).callDepth = m.callDepth := rfl

theorem renumber_self : m.renumber (fun line => line) = m := by
  simp [renumber, Environments.renumber_self, Value.renumber_self, Bindings.mapValues_self,
    Event.renumber_self]

theorem renumber_renumber : (m.renumber φ).renumber ψ = m.renumber (ψ ∘ φ) := by
  simp [renumber, Environments.renumber_renumber, Bindings.mapValues_mapValues,
    Value.renumber_comp, Event.renumber_comp]

/-- Other line numbers do not show in what is printed. -/
theorem output_renumber : (m.renumber φ).events.output = m.events.output := by
  unfold Transcript.output renumber
  rw [← List.map_reverse, List.map_map, Event.output_renumber]

/-- The globals by name, as they print. -/
def globalTexts : List (String × String) := m.globalValues.map fun p => (p.1, p.2.text)

theorem globalTexts_renumber : (m.renumber φ).globalTexts = m.globalTexts := by
  have hle : ∀ a ∈ m.environments.bindings globals, ∀ b ∈ m.environments.bindings globals,
      decide (a.1 ≤ b.1) = decide ((a.1, a.2.renumber φ).1 ≤ (b.1, b.2.renumber φ).1) :=
    fun _ _ _ _ => rfl
  unfold globalTexts globalValues
  show List.map _ (((m.environments.renumber φ).bindings globals).mergeSort _) = _
  rw [Environments.bindings_renumber, Bindings.mapValues, ← List.map_mergeSort hle, List.map_map]
  simp [Function.comp_def, Value.text_map]

end Machine
end Lox

import Lox.Text.Quoted
import Lox.Value
/-!
Environments. They are numbered as they are created; each binds names of its own and, the
outermost apart, lies in an environment created before it. A name is found in the nearest
environment that binds it, or in one a given number of links away.
-/
namespace Lox

structure Frame where
  bindings : Bindings Value
  enclosing : Option Nat

/-- What a broken link between a program and its environments looks like. -/
inductive Fault
  | noAncestor (distance : Nat)
  | unbound (name : String)
  | unresolved (keyword : String)
  | notClass

def Fault.text : Fault → String
  | noAncestor distance => "Environment has no ancestor at distance " ++ toString distance
  | unbound name => "No binding of " ++ Text.quoted name
  | unresolved keyword => "No scope of " ++ Text.quoted keyword
  | notClass => "No class to look for a method in"

structure Environments where
  frames : Array Frame

namespace Environments

def empty : Environments := ⟨#[]⟩

def create (s : Environments) (enclosing : Option Nat) (bindings : Bindings Value) :
    Nat × Environments :=
  (s.frames.size, ⟨s.frames.push ⟨bindings, enclosing⟩⟩)

def bindings (s : Environments) (e : Nat) : Bindings Value :=
  match s.frames[e]? with
  | some frame => frame.bindings
  | none => []

def find? (s : Environments) (e : Nat) (name : String) : Option Value := (s.bindings e).find? name

/-- Binds a name in the environment itself, whatever the ones around it bind. -/
def define (s : Environments) (e : Nat) (name : String) (value : Value) : Environments :=
  ⟨s.frames.modify e fun frame => { frame with bindings := frame.bindings.put name value }⟩

def link? (s : Environments) (e : Nat) : Option Nat := (s.frames[e]?).bind Frame.enclosing

/-- The environment around another one. It was created before. -/
def enclosing? (s : Environments) (e : Nat) : Option { p : Nat // p < e } :=
  match s.link? e with
  | some p => if h : p < e then some ⟨p, h⟩ else none
  | none => none

def owner? (s : Environments) (name : String) (e : Nat) : Option Nat :=
  if (s.find? e name).isSome then some e
  else
    match s.enclosing? e with
    | some ⟨p, _⟩ => s.owner? name p
    | none => none
termination_by e

def get? (s : Environments) (e : Nat) (name : String) : Option Value :=
  (s.owner? name e).bind (s.find? · name)

def assign? (s : Environments) (e : Nat) (name : String) (value : Value) : Option Environments :=
  (s.owner? name e).map (s.define · name value)

def ancestor? (s : Environments) (e : Nat) : (distance : Nat) → Option Nat
  | 0 => some e
  | distance + 1 =>
    match s.enclosing? e with
    | some p => s.ancestor? p.val distance
    | none => none

def ancestor (s : Environments) (e distance : Nat) : Except Fault Nat :=
  match s.ancestor? e distance with
  | some a => .ok a
  | none => .error (.noAncestor distance)

def getAt (s : Environments) (e distance : Nat) (name : String) : Except Fault Value :=
  match s.ancestor e distance with
  | .error f => .error f
  | .ok a =>
    match s.find? a name with
    | some value => .ok value
    | none => .error (.unbound name)

def assignAt (s : Environments) (e distance : Nat) (name : String) (value : Value) :
    Except Fault Environments :=
  match s.ancestor e distance with
  | .error f => .error f
  | .ok a => .ok (s.define a name value)

theorem bindings_define (s : Environments) (e e' : Nat) (name : String) (value : Value) :
    (s.define e name value).bindings e' =
      if e = e' ∧ e < s.frames.size then (s.bindings e').put name value else s.bindings e' := by
  unfold bindings define
  simp only [Array.getElem?_modify]
  by_cases h : e = e'
  · subst h
    by_cases hs : e < s.frames.size
    · simp [hs]
    · simp [hs]
  · simp [h]

theorem find?_define {s : Environments} {e : Nat} (h : e < s.frames.size) (e' : Nat)
    (name name' : String) (value : Value) :
    (s.define e name value).find? e' name' =
      if e = e' ∧ name = name' then some value else s.find? e' name' := by
  unfold find?
  rw [bindings_define]
  by_cases he : e = e'
  · simp [he ▸ h, he, Bindings.find?_put]
  · simp [he]

/-- What is bound afterwards is the new value, or was bound before. -/
theorem of_find?_define {s : Environments} {e e' : Nat} {name name' : String} {value v : Value}
    (h : (s.define e name value).find? e' name' = some v) :
    (name = name' ∧ value = v) ∨ s.find? e' name' = some v := by
  by_cases he : e < s.frames.size
  · rw [find?_define he] at h
    split at h
    · next heq => exact .inl ⟨heq.2, Option.some.inj h⟩
    · exact .inr h
  · unfold find? at h ⊢
    rw [bindings_define, if_neg fun hc => he hc.2] at h
    exact .inr h

theorem link?_define (s : Environments) (e e' : Nat) (name : String) (value : Value) :
    (s.define e name value).link? e' = s.link? e' := by
  unfold link? define
  simp only [Array.getElem?_modify]
  by_cases h : e = e'
  · subst h
    cases s.frames[e]? <;> simp
  · simp [h]

theorem bindings_create (s : Environments) (enclosing : Option Nat) (b : Bindings Value)
    (e : Nat) :
    (s.create enclosing b).2.bindings e = if e = s.frames.size then b else s.bindings e := by
  unfold bindings create
  by_cases h : e = s.frames.size
  · simp [h]
  · simp [Array.getElem?_push, h]

section
variable {s t : Environments}

/-- Chains depend on the links only. -/
theorem enclosing?_congr {e : Nat} (hl : t.link? e = s.link? e) :
    t.enclosing? e = s.enclosing? e := by
  unfold enclosing?
  rw [hl]

theorem ancestor?_congr (hl : ∀ e, t.link? e = s.link? e) (e d : Nat) :
    t.ancestor? e d = s.ancestor? e d := by
  induction d generalizing e with
  | zero => rfl
  | succ d ih => simp only [ancestor?, enclosing?_congr (hl e), ih]

theorem owner?_congr {x : String} (hl : ∀ e, t.link? e = s.link? e)
    (hx : ∀ e, (t.find? e x).isSome = (s.find? e x).isSome) (e : Nat) :
    t.owner? x e = s.owner? x e := by
  fun_induction s.owner? x e with
  | case1 e h => rw [owner?, hx, if_pos h]
  | case2 e h p hp he ih =>
    rw [owner?, hx, if_neg h, enclosing?_congr (hl e), he]
    exact ih
  | case3 e h he => rw [owner?, hx, if_neg h, enclosing?_congr (hl e), he]

end

def depth (s : Environments) (e : Nat) : Nat :=
  match s.enclosing? e with
  | some ⟨p, _⟩ => s.depth p + 1
  | none => 0
termination_by e

def names (s : Environments) (e : Nat) : List String :=
  ((s.bindings e).map Prod.fst).mergeSort fun a b => decide (a ≤ b)

def describe (s : Environments) (e : Nat) : String :=
  "<Environment depth=" ++ toString (s.depth e) ++ " names=" ++ Text.quotedList (s.names e) ++ ">"

end Environments
end Lox

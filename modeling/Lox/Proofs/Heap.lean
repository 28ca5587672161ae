import Lox.Proofs.Placement
import Lox.Machine

/-! Environments behind a running program. An environment supports a place in a program when every
name in scope there is bound as many links out as resolution says; a value is good when each
function in it was written in a place that its environment supports. -/

namespace Lox

section fields
variable {objects : Array (Bindings Value)} {r : Nat} {b : Bindings Value} {x : String} {v : Value}

/-- A new instance has no fields. -/
theorem getElem?_of_push_nil (hb : (objects.push [])[r]? = some b) (hv : b.find? x = some v) :
    objects[r]? = some b := by
  rw [Array.getElem?_push] at hb
  split at hb
  · cases hb
    cases hv
  · exact hb

/-- A field has the value it is set to, or the one it had before. -/
theorem getElem?_of_modify_put {ref : Nat} {name : String} {w : Value}
    (hb : (objects.modify ref (·.put name w))[r]? = some b) (hv : b.find? x = some v) :
    w = v ∨ ∃ b', objects[r]? = some b' ∧ b'.find? x = some v := by
  rw [Array.getElem?_modify] at hb
  split at hb
  · obtain ⟨b', hb', rfl⟩ := Option.map_eq_some_iff.1 hb
    rw [Bindings.find?_put] at hv
    split at hv
    · exact .inl (Option.some.inj hv)
    · exact .inr ⟨b', hb', hv⟩
  · exact .inr ⟨b, hb, hv⟩

end fields

namespace Environments
variable {s t u : Environments} {e p d : Nat} {x : String}

/-- Environments stay where they are, and names stay bound. -/
structure Grows (s t : Environments) : Prop where
  size : s.frames.size ≤ t.frames.size
  link : ∀ e p, s.link? e = some p → t.link? e = some p
  bound : ∀ e x, (s.find? e x).isSome → (t.find? e x).isSome

theorem Grows.refl (s : Environments) : s.Grows s := ⟨Nat.le_refl _, fun _ _ h => h, fun _ _ h => h⟩

theorem Grows.trans (h : s.Grows t) (h' : t.Grows u) : s.Grows u where
  size := Nat.le_trans h.size h'.size
  link e p hp := h'.link e p (h.link e p hp)
  bound e x hx := h'.bound e x (h.bound e x hx)

theorem enclosing?_eq_some {q : { q : Nat // q < e }} (h : s.enclosing? e = some q) :
    s.link? e = some q.val := by
  unfold enclosing? at h
  split at h
  · split at h <;> cases h
    assumption
  · cases h

theorem enclosing?_of_link (h : s.link? e = some p) (hp : p < e) :
    s.enclosing? e = some ⟨p, hp⟩ := by
  simp [enclosing?, h, hp]

theorem ancestor?_of_link (h : s.link? e = some p) (hp : p < e) (d : Nat) :
    s.ancestor? e (d + 1) = s.ancestor? p d := by
  simp [ancestor?, enclosing?_of_link h hp]

theorem Grows.ancestor (h : s.Grows t) {a : Nat} (ha : s.ancestor? e d = some a) :
    t.ancestor? e d = some a := by
  induction d generalizing e with
  | zero => exact ha
  | succ d ih =>
    unfold ancestor? at ha
    split at ha
    · next q hq =>
      rw [ancestor?_of_link (h.link e q (enclosing?_eq_some hq)) q.2]
      exact ih ha
    · cases ha

theorem getAt_eq_ok {v : Value} :
    s.getAt e d x = .ok v ↔ ∃ a, s.ancestor? e d = some a ∧ s.find? a x = some v := by
  unfold getAt ancestor
  cases s.ancestor? e d with
  | none => simp
  | some a => cases h : s.find? a x <;> simp [h]

theorem owner?_zero (s : Environments) (x : String) :
    s.owner? x 0 = if (s.find? 0 x).isSome then some 0 else none := by
  have he : s.enclosing? 0 = none := by
    cases h : s.enclosing? 0 with
    | none => rfl
    | some q => exact absurd q.2 (Nat.not_lt_zero _)
  unfold owner?
  rw [he]

theorem get?_zero (s : Environments) (x : String) : s.get? 0 x = s.find? 0 x := by
  unfold get?
  rw [owner?_zero]
  cases h : s.find? 0 x <;> simp [h]

theorem owner?_self {e : Nat} (h : (s.find? e x).isSome) : s.owner? x e = some e := by
  unfold owner?
  rw [if_pos h]

theorem find?_create (s : Environments) (enclosing : Option Nat) (b : Bindings Value) (e : Nat)
    (x : String) :
    (s.create enclosing b).2.find? e x = if e = s.frames.size then b.find? x else s.find? e x := by
  unfold find?
  rw [bindings_create]
  split <;> rfl

theorem of_find?_create {enclosing : Option Nat} {b : Bindings Value} {v : Value}
    (h : (s.create enclosing b).2.find? e x = some v) :
    b.find? x = some v ∨ s.find? e x = some v := by
  rw [find?_create] at h
  split at h
  · exact .inl h
  · exact .inr h

/-- A name can be bound when its environment is created, or just after. -/
theorem define_create (s : Environments) (enclosing : Option Nat) (b : Bindings Value) (x : String)
    (v : Value) :
    (s.create enclosing b).2.define s.frames.size x v = (s.create enclosing (b.put x v)).2 := by
  unfold create define
  congr 1
  apply Array.ext_getElem?
  intro i
  rw [Array.getElem?_modify, Array.getElem?_push, Array.getElem?_push]
  by_cases hi : i = s.frames.size
  · simp [hi]
  · simp [hi, Ne.symm hi]

theorem find?_of_size_le (h : s.frames.size ≤ e) (x : String) : s.find? e x = none := by
  simp [find?, bindings, Array.getElem?_eq_none h]

theorem link?_of_size_le (h : s.frames.size ≤ e) : s.link? e = none := by
  simp [link?, Array.getElem?_eq_none h]

theorem link?_create (s : Environments) (enclosing : Option Nat) (b : Bindings Value) (e : Nat) :
    (s.create enclosing b).2.link? e = if e = s.frames.size then enclosing else s.link? e := by
  unfold link? create
  by_cases h : e = s.frames.size
  · simp [h]
  · simp [Array.getElem?_push, h]

theorem size_create (s : Environments) (enclosing : Option Nat) (b : Bindings Value) :
    (s.create enclosing b).2.frames.size = s.frames.size + 1 := by
  simp [create]

theorem size_define (s : Environments) (e : Nat) (x : String) (v : Value) :
    (s.define e x v).frames.size = s.frames.size := by
  simp [define]

theorem grows_create (s : Environments) (enclosing : Option Nat) (b : Bindings Value) :
    s.Grows (s.create enclosing b).2 where
  size := by rw [size_create]; omega
  link e p h := by
    have hne : e ≠ s.frames.size := by
      intro he
      rw [link?_of_size_le (Nat.le_of_eq he.symm)] at h
      cases h
    rw [link?_create, if_neg hne]
    exact h
  bound e x h := by
    have hne : e ≠ s.frames.size := by
      intro he
      rw [find?_of_size_le (Nat.le_of_eq he.symm)] at h
      cases h
    rw [find?_create, if_neg hne]
    exact h

theorem grows_define (s : Environments) (e : Nat) (x : String) (v : Value) :
    s.Grows (s.define e x v) where
  size := Nat.le_of_eq (size_define s e x v).symm
  link e' p h := by rw [link?_define]; exact h
  bound e' y h := by
    by_cases he : e < s.frames.size
    · rw [find?_define he]
      split
      · rfl
      · exact h
    · unfold find? at h ⊢
      rw [bindings_define, if_neg fun hc => he hc.2]
      exact h

/-- Every name in scope at the place is bound where resolution says, unless its own initializer
is still running. -/
structure Supports (s : Environments) (e : Nat) (place : Surroundings) : Prop where
  exists_ : e < s.frames.size
  finds : ∀ x d, place.hops x = some d →
    ∃ a, s.ancestor? e d = some a ∧ (place.unready x = false → (s.find? a x).isSome)

variable {place : Surroundings}

theorem Supports.mono (h : s.Supports e place) (hg : s.Grows t) : t.Supports e place where
  exists_ := Nat.lt_of_lt_of_le h.exists_ hg.size
  finds x d hx := by
    obtain ⟨a, ha, hb⟩ := h.finds x d hx
    exact ⟨a, hg.ancestor ha, fun hu => hg.bound a x (hb hu)⟩

theorem Supports.enter (h : s.Supports e place) (activation : Activation) :
    s.Supports e { place with activation } := ⟨h.exists_, h.finds⟩

theorem Supports.enterClass (h : s.Supports e place) (context : ClassContext) :
    s.Supports e { place with context } := ⟨h.exists_, h.finds⟩

theorem Supports.initializing (h : s.Supports e place) (name : Token) :
    s.Supports e (place.initializing name) where
  exists_ := h.exists_
  finds x d hx := by simpa using h.finds x d (by simpa using hx)

/-- A name that is declared but not ready need not be bound. -/
theorem Supports.declare (h : s.Supports e place) (name : String) :
    s.Supports e (place.bind name false) := by
  by_cases hs : place.scopes = []
  · rwa [Surroundings.bind_of_global hs]
  · refine ⟨h.exists_, fun x d hx => ?_⟩
    rw [Surroundings.hops_bind hs] at hx
    by_cases hn : name = x
    · rw [if_pos hn] at hx
      cases hx
      refine ⟨e, rfl, fun hu => ?_⟩
      rw [Surroundings.unready_bind hs, if_pos hn] at hu
      cases hu
    · rw [if_neg hn] at hx
      rw [Surroundings.unready_bind hs, if_neg hn]
      exact h.finds x d hx

theorem Supports.define (h : s.Supports e place) (name : String) (v : Value) :
    (s.define e name v).Supports e (place.bind name true) := by
  have hm := h.mono (grows_define s e name v)
  by_cases hs : place.scopes = []
  · rwa [Surroundings.bind_of_global hs]
  · refine ⟨hm.exists_, fun x d hx => ?_⟩
    rw [Surroundings.hops_bind hs] at hx
    by_cases hn : name = x
    · rw [if_pos hn] at hx
      cases hx
      refine ⟨e, rfl, fun _ => ?_⟩
      rw [find?_define h.exists_, if_pos ⟨rfl, hn⟩]
      rfl
    · rw [if_neg hn] at hx
      rw [Surroundings.unready_bind hs, if_neg hn]
      exact hm.finds x d hx

/-- An environment inside one that supports a place supports the scope opened there. -/
theorem Supports.push (h : s.Supports p place) (hp : place.Settled) (he : e < s.frames.size)
    (hl : s.link? e = some p) (hlt : p < e) {b : Bindings Bool}
    (hb : ∀ x, (b.find? x).isSome → (s.find? e x).isSome) : s.Supports e (place.push b) where
  exists_ := he
  finds x d hx := by
    rw [Surroundings.hops_push] at hx
    split at hx
    · next hbx =>
      cases hx
      exact ⟨e, rfl, fun _ => hb x hbx⟩
    · obtain ⟨d', hd, rfl⟩ := Option.map_eq_some_iff.1 hx
      obtain ⟨a, ha, hf⟩ := h.finds x d' hd
      exact ⟨a, by rw [ancestor?_of_link hl hlt]; exact ha, fun _ => hf (hp x)⟩

end Environments

/-- The function was written as `f` in the place `s`, and was accepted there. -/
structure Closure.Written (c : Closure) (s : Surroundings) (activation : Activation)
    (f : RawFunction) : Prop where
  declaration : c.declaration = Stmt.functionBound s activation f
  accepted : Stmt.functionProblems s activation f = []
  regular : Stmt.FunctionRegular Token.Spelled f
  activation : activation ≠ .topLevel
  lawful : s.Lawful

/-- A function that can be entered. -/
def Closure.Good (envs : Environments) (c : Closure) : Prop :=
  (∃ s activation f, c.Written s activation f ∧ s.Settled ∧ envs.Supports c.environment s) ∧
  (c.isInitializer → (envs.find? c.environment "this").isSome)

/-- A method that can be entered once `this` is bound around it. -/
def Closure.GoodMethod (envs : Environments) (c : Closure) : Prop :=
  ∃ s activation f, c.Written (s.push [("this", true)]) activation f ∧ s.Settled ∧
    envs.Supports c.environment s

namespace Class
variable {ρ ε : Type}

/-- Every method of the class and of those it inherits from passes. -/
def All (P : Closure ρ ε → Prop) : Class ρ ε → Prop
  | root _ _ methods => ∀ p ∈ methods, P p.2
  | derived _ _ methods superclass => (∀ p ∈ methods, P p.2) ∧ superclass.All P

theorem All.mono {P Q : Closure ρ ε → Prop} {c : Class ρ ε} (h : c.All P)
    (hPQ : ∀ f, P f → Q f) : c.All Q := by
  induction c with
  | root id name methods => exact fun p hp => hPQ p.2 (h p hp)
  | derived id name methods superclass ih => exact ⟨fun p hp => hPQ p.2 (h.1 p hp), ih h.2⟩

theorem All.findMethod {P : Closure ρ ε → Prop} {c : Class ρ ε} (h : c.All P) {x : String}
    {f : Closure ρ ε} (hf : c.findMethod x = some f) : P f := by
  induction c with
  | root id name methods => exact h _ (Bindings.mem_of_find? hf)
  | derived id name methods superclass ih =>
    unfold Class.findMethod at hf
    split at hf
    · next hm => cases hf; exact h.1 _ (Bindings.mem_of_find? hm)
    · exact ih h.2 hf

end Class

def Value.Good (envs : Environments) : Value → Prop
  | .function f => f.Good envs
  | .class_ c | .object _ c => c.All (Closure.GoodMethod envs)
  | _ => True

variable {s t : Environments}

theorem Closure.Good.mono {f : Closure} (h : f.Good s) (hg : s.Grows t) : f.Good t := by
  obtain ⟨⟨place, activation, raw, hw, hs, he⟩, hi⟩ := h
  exact ⟨⟨place, activation, raw, hw, hs, he.mono hg⟩, fun h => hg.bound _ _ (hi h)⟩

theorem Closure.GoodMethod.mono {f : Closure} (h : f.GoodMethod s) (hg : s.Grows t) :
    f.GoodMethod t := by
  obtain ⟨place, activation, raw, hw, hs, he⟩ := h
  exact ⟨place, activation, raw, hw, hs, he.mono hg⟩

theorem Value.Good.mono {v : Value} (h : v.Good s) (hg : s.Grows t) : v.Good t := by
  cases v with
  | function f => exact Closure.Good.mono h hg
  | class_ c => exact Class.All.mono h fun f hf => hf.mono hg
  | object ref c => exact Class.All.mono h fun f hf => hf.mono hg
  | _ => trivial

/-- What may be bound to a name: anything good, but only an instance to `this` and only a class to
`super`. -/
structure Value.Fits (envs : Environments) (x : String) (v : Value) : Prop where
  good : v.Good envs
  this : x = "this" → ∃ ref c, v = .object ref c
  super : x = "super" → ∃ c, v = .class_ c

theorem Value.Fits.mono {x : String} {v : Value} (h : v.Fits s x) (hg : s.Grows t) : v.Fits t x :=
  ⟨h.good.mono hg, h.this, h.super⟩

theorem Value.Good.fits {v : Value} (h : v.Good s) {name : Token} (hn : name.Names Token.Spelled) :
    v.Fits s name.lexeme :=
  ⟨h, fun he => absurd he (Token.lexeme_ne_this hn), fun he => absurd he (Token.lexeme_ne_super hn)⟩

namespace Machine

theorem globals_lt_initial (clock : Float) :
    Machine.globals < (initial clock).environments.frames.size := by
  simp [initial, Machine.globals, Environments.size_create]

/-- At first, a machine knows the clock and nothing else. -/
theorem eq_clock_of_initial {clock : Float} {e : Nat} {x : String} {v : Value}
    (h : (initial clock).environments.find? e x = some v) : "clock" = x ∧ .native .clock = v := by
  unfold initial at h
  rw [Environments.find?_create] at h
  split at h
  · exact Bindings.eq_of_find?_singleton h
  · simp [Environments.find?, Environments.bindings, Environments.empty] at h

theorem objects_initial (clock : Float) (ref : Nat) : (initial clock).objects[ref]? = none := rfl

end Machine
end Lox

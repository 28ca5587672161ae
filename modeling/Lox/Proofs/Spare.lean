import Lox.Proofs.Agreement
import Lox.Proofs.Parallel

/-! Spare scopes. A scope that binds nothing can be opened around a part of a program. Everything
beyond it is then resolved one scope further out, and one environment more lies in between. Two
machines that run a part with and without such a scope do the same, with environments that are
numbered differently. -/

namespace Lox

/-- How many scopes out a spare one lies, if there is one. -/
abbrev Spare := Option Nat

namespace Spare
variable {k : Spare} {d : Nat}

/-- How far out something is when the spare scope is there as well. -/
def past : Spare → Nat → Nat
  | none, d => d
  | some k, d => if d < k then d else d + 1

def inner (k : Spare) : Spare := k.map (· + 1)

theorem past_none : past none = fun d => d := rfl

theorem past_inner_zero (k : Spare) : k.inner.past 0 = 0 := by
  cases k with
  | none => rfl
  | some k => simp [inner, past]

theorem past_inner_succ (k : Spare) (d : Nat) : k.inner.past (d + 1) = k.past d + 1 := by
  cases k with
  | none => rfl
  | some k =>
    show (if d + 1 < k + 1 then d + 1 else d + 1 + 1) = (if d < k then d else d + 1) + 1
    split <;> split <;> omega

theorem past_zero (hk : k ≠ some 0) : k.past 0 = 0 := by
  cases k with
  | none => rfl
  | some k => exact if_pos (Nat.pos_of_ne_zero fun h => hk (congrArg some h))

/-- Neighbours stay neighbours unless the spare scope lies between them. -/
theorem past_sub_one (hd : ∀ j ∈ k, d ≠ j) : k.past d - 1 = k.past (d - 1) := by
  cases k with
  | none => rfl
  | some k =>
    have hd : d ≠ k := hd k rfl
    show (if d < k then d else d + 1) - 1 = if d - 1 < k then d - 1 else d - 1 + 1
    split <;> split <;> omega

theorem inner_ne_zero (k : Spare) : k.inner ≠ some 0 := by
  cases k <;> simp [inner]

end Spare

namespace Surroundings
variable {k : Spare} {s s' : Surroundings}

/-- On the right a spare scope lies `k` scopes out. It does not part `this` from `super`. -/
structure Spared (k : Spare) (s s' : Surroundings) : Prop where
  hops : ∀ x, s'.hops x = (s.hops x).map k.past
  scopes : s'.scopes = [] ↔ s.scopes = []
  context : s'.context = s.context
  super : ∀ j ∈ k, s.hops "super" ≠ some j

namespace Spared

theorem refl (s : Surroundings) : Spared none s s where
  hops x := by rw [Spare.past_none, Option.map_id']
  scopes := .rfl
  context := rfl
  super _ hj := nomatch hj

theorem here (hs : s.scopes ≠ []) (hsuper : s.hops "super" ≠ some 0) :
    Spared (some 0) s (s.push []) where
  hops := hops_push s []
  scopes := iff_of_false (by simp [push]) hs
  context := rfl
  super j hj := by cases hj; exact hsuper

theorem push (h : Spared k s s') (b : Bindings Bool) : Spared k.inner (s.push b) (s'.push b) where
  hops x := by
    rw [hops_push, hops_push, h.hops]
    split
    · exact congrArg some (Spare.past_inner_zero k).symm
    · rw [Option.map_map, Option.map_map]
      exact congrArg (Option.map · _) (funext fun d => (Spare.past_inner_succ k d).symm)
  scopes := iff_of_false (by simp [Surroundings.push]) (by simp [Surroundings.push])
  context := h.context
  super j hj := by
    obtain ⟨i, hi, rfl⟩ := Option.map_eq_some_iff.1 hj
    rw [hops_push]
    split
    · exact fun h0 => Nat.succ_ne_zero i (Option.some.inj h0).symm
    · intro hsome
      obtain ⟨d, hd, he⟩ := Option.map_eq_some_iff.1 hsome
      exact h.super i hi (Nat.succ.inj he ▸ hd)

theorem bind (h : Spared k s s') (hk : k ≠ some 0) (name : String) (r : Bool) :
    Spared k (s.bind name r) (s'.bind name r) := by
  by_cases hs : s.scopes = []
  · rwa [bind_of_global hs, bind_of_global (h.scopes.2 hs)]
  · have hs' : s'.scopes ≠ [] := fun h' => hs (h.scopes.1 h')
    refine ⟨fun x => ?_, iff_of_false (bind_scopes_ne hs' name r) (bind_scopes_ne hs name r), ?_,
      fun j hj => ?_⟩
    · rw [hops_bind hs, hops_bind hs', h.hops]
      split
      · exact congrArg some (Spare.past_zero hk).symm
      · rfl
    · rw [context_bind, context_bind, h.context]
    · rw [hops_bind hs]
      split
      · intro h0
        cases h0
        exact hk hj
      · exact h.super j hj

theorem initializing (h : Spared k s s') (name : Token) :
    Spared k (s.initializing name) (s'.initializing name) where
  hops x := by rw [hops_initializing, hops_initializing, h.hops]
  scopes := by rw [scopes_initializing, scopes_initializing, h.scopes]
  context := by rw [context_initializing, context_initializing, h.context]
  super j hj := by rw [hops_initializing]; exact h.super j hj

theorem entering (h : Spared k s s') (activation : Activation) (parameters : List Token) :
    Spared k.inner (s.entering activation parameters) (s'.entering activation parameters) := by
  have hactivation : Spared k { s with activation } { s' with activation } :=
    ⟨h.hops, h.scopes, h.context, h.super⟩
  rw [entering_eq, entering_eq]
  exact hactivation.push _

theorem inContext (h : Spared k s s') (context : ClassContext) :
    Spared k { s with context } { s' with context } := ⟨h.hops, h.scopes, rfl, h.super⟩

theorem after (h : Spared k s s') {st : RawStmt} (hr : st.Regular Token.Spelled)
    (hk : k = some 0 → st.isPlain) : Spared k (Stmt.after s st) (Stmt.after s' st) := by
  cases hd : st.declared? with
  | none =>
    have hp := Stmt.isPlain_of_not_declared hd
    rwa [Stmt.after_of_isPlain hr hp, Stmt.after_of_isPlain hr hp]
  | some name =>
    rw [Stmt.after_of_declared hd, Stmt.after_of_declared hd]
    refine h.bind (fun h0 => ?_) name.lexeme true
    cases st with
    | var | class_ => exact Bool.noConfusion (hk h0)
    | function f => exact Bool.noConfusion (hk h0)
    | _ => cases hd

end Spared
end Surroundings

namespace Environments
variable {s t u : Environments} {e d a : Nat}

/-- Environments that grow keep what lies around them. -/
structure Stays (s t : Environments) : Prop where
  grows : s.Grows t
  link : ∀ e < s.frames.size, t.link? e = s.link? e

theorem Stays.refl (s : Environments) : s.Stays s := ⟨.refl s, fun _ _ => rfl⟩

theorem Stays.trans (h : s.Stays t) (h' : t.Stays u) : s.Stays u where
  grows := h.grows.trans h'.grows
  link e he := (h'.link e (Nat.lt_of_lt_of_le he h.grows.size)).trans (h.link e he)

theorem stays_create (s : Environments) (enclosing : Option Nat) (b : Bindings Value) :
    s.Stays (s.create enclosing b).2 where
  grows := grows_create s enclosing b
  link e he := by rw [link?_create, if_neg (Nat.ne_of_lt he)]

theorem stays_define (s : Environments) (e : Nat) (x : String) (v : Value) :
    s.Stays (s.define e x v) where
  grows := grows_define s e x v
  link e' _ := link?_define s e e' x v

theorem le_of_ancestor? (h : s.ancestor? e d = some a) : a ≤ e := by
  induction d generalizing e with
  | zero => cases h; exact Nat.le_refl _
  | succ d ih =>
    unfold ancestor? at h
    split at h
    · next p _ => exact Nat.le_trans (ih h) (Nat.le_of_lt p.2)
    · cases h

theorem Stays.ancestor? (h : s.Stays t) (he : e < s.frames.size) (d : Nat) :
    t.ancestor? e d = s.ancestor? e d := by
  induction d generalizing e with
  | zero => rfl
  | succ d ih =>
    unfold Environments.ancestor?
    rw [enclosing?_congr (h.link e he)]
    cases s.enclosing? e with
    | none => rfl
    | some p => exact ih (Nat.lt_trans p.2 he)

end Environments

/-- Environments on two sides, and where each one on the left has its place on the right. -/
structure Layout where
  left : Environments
  right : Environments
  place : Nat → Nat

namespace Layout
variable {W W' W'' : Layout} {k : Spare} {e f p q : Nat}

structure Grows (W W' : Layout) : Prop where
  left : W.left.Stays W'.left
  right : W.right.Stays W'.right
  place : ∀ e < W.left.frames.size, W'.place e = W.place e

theorem Grows.refl (W : Layout) : W.Grows W := ⟨.refl _, .refl _, fun _ _ => rfl⟩

theorem Grows.trans (h : W.Grows W') (h' : W'.Grows W'') : W.Grows W'' where
  left := h.left.trans h'.left
  right := h.right.trans h'.right
  place e he := (h'.place e (Nat.lt_of_lt_of_le he h.left.grows.size)).trans (h.place e he)

/-- The same environments lie around `e` on the left and `f` on the right, where a spare one lies
`k` links out. -/
structure Lies (W : Layout) (k : Spare) (e f : Nat) : Prop where
  left : e < W.left.frames.size
  right : f < W.right.frames.size
  ancestor : ∀ d, W.right.ancestor? f (k.past d) = (W.left.ancestor? e d).map W.place

theorem Lies.mono (h : W.Lies k e f) (hg : W.Grows W') : W'.Lies k e f where
  left := Nat.lt_of_lt_of_le h.left hg.left.grows.size
  right := Nat.lt_of_lt_of_le h.right hg.right.grows.size
  ancestor d := by
    rw [hg.right.ancestor? h.right, hg.left.ancestor? h.left, h.ancestor]
    refine Option.map_congr fun a ha => (hg.place a ?_).symm
    exact Nat.lt_of_le_of_lt (Environments.le_of_ancestor? ha) h.left

theorem Lies.place_eq (h : W.Lies k e f) (hk : k ≠ some 0) : f = W.place e := by
  have h0 := h.ancestor 0
  rw [Spare.past_zero hk] at h0
  exact Option.some.inj h0

theorem Lies.inner (h : W.Lies k p q) (he : e < W.left.frames.size) (hep : W.left.link? e = some p)
    (hpe : p < e) (hf : f < W.right.frames.size) (hfq : W.right.link? f = some q) (hqf : q < f)
    (hplace : W.place e = f) : W.Lies k.inner e f where
  left := he
  right := hf
  ancestor d := by
    cases d with
    | zero =>
      rw [Spare.past_inner_zero]
      exact congrArg some hplace.symm
    | succ d =>
      rw [Spare.past_inner_succ, Environments.ancestor?_of_link hfq hqf,
        Environments.ancestor?_of_link hep hpe, h.ancestor]

theorem Lies.spare (h : W.Lies none e q) (hf : f < W.right.frames.size)
    (hfq : W.right.link? f = some q) (hqf : q < f) : W.Lies (some 0) e f where
  left := h.left
  right := hf
  ancestor d := by
    show W.right.ancestor? f (d + 1) = _
    rw [Environments.ancestor?_of_link hfq hqf]
    exact h.ancestor d

/-- The same function, resolved on the right with a spare scope. The scopes that it has yet to be
put into are `inner`. -/
structure SameCode (W : Layout) (inner : Surroundings → Surroundings) (f g : Closure) : Prop where
  id : f.id = g.id
  isInitializer : f.isInitializer = g.isInitializer
  environment : g.environment = W.place f.environment
  declaration : ∃ (k : Spare) (s s' : Surroundings) (activation : Activation) (raw : RawFunction),
    Surroundings.Spared k s s' ∧ W.Lies k f.environment g.environment ∧
      Stmt.FunctionRegular Token.Spelled raw ∧
      f.declaration = Stmt.functionBound (inner s) activation raw ∧
      g.declaration = Stmt.functionBound (inner s') activation raw

def inMethod (s : Surroundings) : Surroundings := s.push [("this", true)]

section
variable {f g : Closure} {v w : Value} {inner : Surroundings → Surroundings}

theorem SameCode.mono (h : W.SameCode inner f g) (hg : W.Grows W') : W'.SameCode inner f g := by
  obtain ⟨k, s, s', activation, raw, hs, hl, hr, hf, hg'⟩ := h.declaration
  exact ⟨h.id, h.isInitializer, h.environment.trans (hg.place _ hl.left).symm,
    k, s, s', activation, raw, hs, hl.mono hg, hr, hf, hg'⟩

/-- Resolution leaves the name and the parameters of a function as they are. -/
theorem SameCode.head_eq (h : W.SameCode inner f g) : f.name = g.name ∧ f.arity = g.arity := by
  obtain ⟨k, s, s', activation, ⟨name, parameters, body⟩, -, -, -, hf, hg⟩ := h.declaration
  unfold Closure.name Closure.arity
  rw [hf, hg]
  exact ⟨rfl, rfl⟩

def Alike (W : Layout) (v w : Value) : Prop := v.Rel (W.SameCode id) (W.SameCode inMethod) w

theorem Alike.mono (h : W.Alike v w) (hg : W.Grows W') : W'.Alike v w :=
  Value.Rel.mono h (fun _ _ h => h.mono hg) fun _ _ h => h.mono hg

end
end Layout

namespace Bindings
variable {α β : Type} {P Q : α → β → Prop} {b : Bindings α} {c : Bindings β}

def Same (P : α → β → Prop) (b : Bindings α) (c : Bindings β) : Prop :=
  ∀ x, Option.Rel P (b.find? x) (c.find? x)

theorem Same.mono (h : b.Same P c) (hPQ : ∀ v w, P v w → Q v w) : b.Same Q c := by
  intro x
  have hx := h x
  generalize b.find? x = v?, c.find? x = w? at hx ⊢
  cases hx with
  | none => exact .none
  | some hv => exact .some (hPQ _ _ hv)

theorem same_nil (P : α → β → Prop) : Same P [] [] := fun _ => .none

theorem Same.put (h : b.Same P c) (x : String) {v : α} {w : β} (hv : P v w) :
    (b.put x v).Same P (c.put x w) := by
  intro y
  rw [find?_put, find?_put]
  split
  · exact .some hv
  · exact h y

theorem same_ofPairs (names : List String) {vs : List α} {ws : List β}
    (h : List.Forall₂ P vs ws) : Same P (.ofPairs (names.zip vs)) (.ofPairs (names.zip ws)) := by
  refine ofPairs_related (same_nil P) (fun b c x y v w hbc hxy hv => ?_)
    (List.forall₂_same.2 fun x _ => Eq.refl x) h
  subst hxy
  exact hbc.put x hv

end Bindings

/-- Two machines that hold the same, each environment on the left at its place on the right. -/
structure Layout.Matches (place : Nat → Nat) (m m' : Machine) : Prop where
  exists_ : Machine.globals < m.environments.frames.size
  root : place Machine.globals = Machine.globals
  within : ∀ e < m.environments.frames.size, place e < m'.environments.frames.size
  apart : ∀ e < m.environments.frames.size, ∀ e' < m.environments.frames.size,
    place e = place e' → e = e'
  bound : ∀ e < m.environments.frames.size,
    (m.environments.bindings e).Same (Layout.Alike ⟨m.environments, m'.environments, place⟩)
      (m'.environments.bindings (place e))
  objects_size : m.objects.size = m'.objects.size
  objects : ∀ ref : Nat,
    Option.Rel (Bindings.Same (Layout.Alike ⟨m.environments, m'.environments, place⟩))
      m.objects[ref]? m'.objects[ref]?
  created : m.created = m'.created
  callDepth : m.callDepth = m'.callDepth
  clock : m.clock = m'.clock
  output : m.events.output = m'.events.output

structure Pair where
  place : Nat → Nat
  left : Machine
  right : Machine
  holds : Layout.Matches place left right

namespace Pair

def layout (t : Pair) : Layout := ⟨t.left.environments, t.right.environments, t.place⟩

structure Later (t u : Pair) : Prop where
  layout : t.layout.Grows u.layout
  left : u.left.current = t.left.current
  right : u.right.current = t.right.current

theorem Later.refl (t : Pair) : t.Later t := ⟨.refl _, rfl, rfl⟩

theorem Later.trans {t u v : Pair} (h : t.Later u) (h' : u.Later v) : t.Later v :=
  ⟨h.layout.trans h'.layout, h'.left.trans h.left, h'.right.trans h.right⟩

end Pair

/-- A fault may be put in other words. -/
def Failure.MeansSame (f g : Failure) : Prop := f = g ∨ f.isFault = true ∧ g.isFault = true

theorem Failure.MeansSame.refl (f : Failure) : f.MeansSame f := .inl rfl

def pairs : Parallel where
  State := Pair
  left := Pair.left
  right := Pair.right
  Later := Pair.Later
  later_refl := Pair.Later.refl
  later_trans := Pair.Later.trans
  Told := Unit
  Confirms _ _ := True
  confirms_later _ _ := trivial
  Fails := Failure.MeansSame
  fails_refl := .refl
  Function t := t.layout.SameCode id
  Method t := t.layout.SameCode Layout.inMethod
  function_later h hf := hf.mono h.layout
  method_later h hf := hf.mono h.layout
  id_eq h := h.id
  name_eq h := h.head_eq.1
  arity_eq h := h.head_eq.2
  methodArity_eq h := h.head_eq.2

end Lox

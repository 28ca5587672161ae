import Mathlib.Data.List.Forall2
import Lox.Proofs.Heap
import Lox.Proofs.Lexical

/-! Names of environments and locations. A location stands for each name that a local environment
binds or has yet to bind; two values are alike when they are the same but for the environments of
the functions in them, and these show the same names. -/

namespace Lox

namespace Bindings
variable {α β : Type} {P Q : α → β → Prop}

/-- The same names in the same order, with related values. -/
def Rel (P : α → β → Prop) : Bindings α → Bindings β → Prop :=
  List.Forall₂ fun p q => p.1 = q.1 ∧ P p.2 q.2

theorem Rel.mono {b : Bindings α} {c : Bindings β} (h : Rel P b c) (hPQ : ∀ v w, P v w → Q v w) :
    Rel Q b c :=
  List.Forall₂.imp (fun _ _ hp => ⟨hp.1, hPQ _ _ hp.2⟩) h

theorem Rel.put {b : Bindings α} {c : Bindings β} (h : Rel P b c) (x : String) {v : α} {w : β}
    (hv : P v w) : Rel P (b.put x v) (c.put x w) := by
  induction h with
  | nil => exact .cons ⟨rfl, hv⟩ .nil
  | @cons p q b c hp hr ih =>
    obtain ⟨y, u⟩ := p
    obtain ⟨z, t⟩ := q
    obtain ⟨rfl, hu⟩ := hp
    by_cases hy : y = x
    · simp only [Bindings.put, if_pos hy]
      exact .cons ⟨rfl, hv⟩ hr
    · simp only [Bindings.put, if_neg hy]
      exact .cons ⟨rfl, hu⟩ ih

theorem Rel.find? {b : Bindings α} {c : Bindings β} (h : Rel P b c) (x : String) :
    (b.find? x = none ∧ c.find? x = none) ∨
      ∃ v w, b.find? x = some v ∧ c.find? x = some w ∧ P v w := by
  induction h with
  | nil => exact .inl ⟨rfl, rfl⟩
  | @cons p q b c hp hr ih =>
    obtain ⟨y, u⟩ := p
    obtain ⟨z, t⟩ := q
    obtain ⟨rfl, hu⟩ := hp
    simp only [find?_cons]
    by_cases hy : y = x
    · simp only [if_pos hy]
      exact .inr ⟨u, t, rfl, rfl, hu⟩
    · simp only [if_neg hy]
      exact ih

theorem Rel.refl {P : α → α → Prop} (h : ∀ v, P v v) (b : Bindings α) : Rel P b b :=
  List.forall₂_same.2 fun _ _ => ⟨rfl, h _⟩

theorem Rel.option {b : Bindings α} {c : Bindings β} (h : Rel P b c) (x : String) :
    Option.Rel P (b.find? x) (c.find? x) := by
  rcases h.find? x with ⟨hb, hc⟩ | ⟨v, w, hb, hc, hvw⟩
  · rw [hb, hc]
    exact .none
  · rw [hb, hc]
    exact .some hvw

theorem Rel.isSome_eq {b : Bindings α} {c : Bindings β} (h : Rel P b c) (x : String) :
    (c.find? x).isSome = (b.find? x).isSome := by
  rcases h.find? x with ⟨hb, hc⟩ | ⟨v, w, hb, hc, -⟩
  · rw [hb, hc]
    rfl
  · rw [hb, hc]
    rfl

/-- What holds of nothing bound and stays so along names and values that belong together holds of
bindings made of these. -/
theorem ofPairs_related {R : Bindings α → Bindings β → Prop} {N : String → String → Prop}
    (hnil : R [] [])
    (hput : ∀ b c x y v w, R b c → N x y → P v w → R (b.put x v) (c.put y w))
    {xs ys : List String} (hnames : List.Forall₂ N xs ys) {vs : List α} {ws : List β}
    (hvalues : List.Forall₂ P vs ws) : R (.ofPairs (xs.zip vs)) (.ofPairs (ys.zip ws)) := by
  suffices hfold : ∀ b c, R b c → R ((xs.zip vs).foldl (fun b p => b.put p.1 p.2) b)
      ((ys.zip ws).foldl (fun b p => b.put p.1 p.2) c) from hfold [] [] hnil
  induction hnames generalizing vs ws with
  | nil => exact fun b c h => h
  | cons hx _ ih =>
    cases hvalues with
    | nil => exact fun b c h => h
    | cons hv hvs => exact fun b c h => ih hvs _ _ (hput b c _ _ _ _ h hx hv)

theorem Rel.ofPairs {vs : List α} {ws : List β} (names : List String) (h : List.Forall₂ P vs ws) :
    Rel P (.ofPairs (names.zip vs)) (.ofPairs (names.zip ws)) := by
  refine ofPairs_related .nil (fun b c x y v w hbc hxy hv => ?_)
    (List.forall₂_same.2 fun x _ => Eq.refl x) h
  subst hxy
  exact hbc.put x hv

end Bindings

section
variable {ρ ε ρ' ε' : Type} {P P' Q Q' : Closure ρ ε → Closure ρ' ε' → Prop}

namespace Class

def Rel (P : Closure ρ ε → Closure ρ' ε' → Prop) : Class ρ ε → Class ρ' ε' → Prop
  | root id name methods, root id' name' methods' =>
    id = id' ∧ name = name' ∧ Bindings.Rel P methods methods'
  | derived id name methods superclass, derived id' name' methods' superclass' =>
    id = id' ∧ name = name' ∧ Bindings.Rel P methods methods' ∧ superclass.Rel P superclass'
  | _, _ => False

variable {c : Class ρ ε} {d : Class ρ' ε'}

theorem Rel.mono (h : c.Rel P d) (hPQ : ∀ f g, P f g → Q f g) : c.Rel Q d := by
  induction c generalizing d with
  | root id name methods =>
    cases d with
    | root => exact ⟨h.1, h.2.1, h.2.2.mono hPQ⟩
    | derived => exact h.elim
  | derived id name methods superclass ih =>
    cases d with
    | root => exact h.elim
    | derived => exact ⟨h.1, h.2.1, h.2.2.1.mono hPQ, ih h.2.2.2⟩

theorem Rel.refl {P : Closure ρ ε → Closure ρ ε → Prop} (h : ∀ f, P f f) (c : Class ρ ε) :
    c.Rel P c := by
  induction c with
  | root id name methods => exact ⟨rfl, rfl, .refl h methods⟩
  | derived id name methods superclass ih => exact ⟨rfl, rfl, .refl h methods, ih⟩

theorem Rel.id_eq (h : c.Rel P d) : c.id = d.id := by
  cases c <;> cases d <;> first | exact h.1 | exact h.elim

theorem Rel.name_eq (h : c.Rel P d) : c.name = d.name := by
  cases c <;> cases d <;> first | exact h.2.1 | exact h.elim

theorem Rel.findMethod (h : c.Rel P d) (x : String) :
    (c.findMethod x = none ∧ d.findMethod x = none) ∨
      ∃ f g, c.findMethod x = some f ∧ d.findMethod x = some g ∧ P f g := by
  induction c generalizing d with
  | root id name methods =>
    cases d with
    | root => exact h.2.2.find? x
    | derived => exact h.elim
  | derived id name methods superclass ih =>
    cases d with
    | root => exact h.elim
    | derived =>
      obtain ⟨-, -, hm, hs⟩ := h
      unfold Class.findMethod
      rcases hm.find? x with ⟨hb, hc⟩ | ⟨f, g, hb, hc, hp⟩
      · simp only [hb, hc]
        exact ih hs
      · simp only [hb, hc]
        exact .inr ⟨f, g, rfl, rfl, hp⟩

end Class

namespace Value

def Rel (P Q : Closure ρ ε → Closure ρ' ε' → Prop) : Value ρ ε → Value ρ' ε' → Prop
  | nil, nil => True
  | bool a, bool b => a = b
  | number a, number b => a = b
  | string a, string b => a = b
  | native a, native b => a = b
  | function f, function g => P f g
  | class_ c, class_ d => c.Rel Q d
  | object ref c, object ref' d => ref = ref' ∧ c.Rel Q d
  | _, _ => False

variable {v : Value ρ ε} {w : Value ρ' ε'}

theorem Rel.mono (h : v.Rel P Q w) (hP : ∀ f g, P f g → P' f g) (hQ : ∀ f g, Q f g → Q' f g) :
    v.Rel P' Q' w := by
  unfold Rel at h ⊢
  split at h
  · trivial
  · exact h
  · exact h
  · exact h
  · exact h
  · exact hP _ _ h
  · exact Class.Rel.mono h hQ
  · exact ⟨h.1, h.2.mono hQ⟩
  · exact h.elim

theorem Rel.refl {P Q : Closure ρ ε → Closure ρ ε → Prop} (hP : ∀ f, P f f) (hQ : ∀ f, Q f f)
    (v : Value ρ ε) : v.Rel P Q v := by
  cases v with
  | function f => exact hP f
  | class_ c => exact Class.Rel.refl hQ c
  | object ref c => exact ⟨rfl, Class.Rel.refl hQ c⟩
  | nil => trivial
  | _ => rfl

theorem Rel.isTruthy_eq (h : v.Rel P Q w) : v.isTruthy = w.isTruthy := by
  unfold Rel at h
  split at h
  · rfl
  · exact h
  all_goals first | rfl | exact h.elim

theorem Rel.decides_eq (h : v.Rel P Q w) (kind : Kind) : decides kind v = decides kind w := by
  unfold decides
  rw [h.isTruthy_eq]

theorem Rel.equal_eq {v' : Value ρ ε} {w' : Value ρ' ε'} (hP : ∀ f g, P f g → f.id = g.id)
    (h : v.Rel P Q w) (h' : v'.Rel P Q w') : equal v v' = equal w w' := by
  unfold Rel at h h'
  split at h <;> split at h' <;> first
    | exact h.elim
    | exact h'.elim
    | rfl
    | (rw [h, h']; rfl)
    | (simp only [equal, hP _ _ h, hP _ _ h'])
    | (simp only [equal, h.id_eq, h'.id_eq])
    | (simp only [equal, h.1, h'.1])

/-- The same error of a program, or related values. -/
def RelResult (P Q : Closure ρ ε → Closure ρ' ε' → Prop) :
    Except Cause (Value ρ ε) → Except Cause (Value ρ' ε') → Prop
  | .ok v, .ok w => v.Rel P Q w
  | .error c, .error c' => c = c' ∧ c ≠ .tooDeeplyNested
  | _, _ => False

theorem Rel.unary (h : v.Rel P Q w) (kind : Kind) (lexeme : String) :
    RelResult P Q (Value.unary kind lexeme v) (Value.unary kind lexeme w) := by
  by_cases hb : kind = .bang
  · subst hb
    have ht := h.isTruthy_eq
    simp [Value.unary, RelResult, Rel, ht]
  by_cases hm : kind = .minus
  · subst hm
    unfold Rel at h
    split at h <;> simp_all [Value.unary, RelResult, Rel]
  have hother {ρ ε : Type} (v : Value ρ ε) :
      Value.unary kind lexeme v = .error (.unknownUnary lexeme) := by
    unfold Value.unary
    split <;> simp_all
  rw [hother, hother]
  exact ⟨rfl, by simp⟩

theorem Rel.arithmetic (P Q : Closure ρ ε → Closure ρ' ε' → Prop) (kind : Kind) :
    (arithmetic kind = (none : Option (Float → Float → Value ρ ε)) ∧
      arithmetic kind = (none : Option (Float → Float → Value ρ' ε'))) ∨
    ∃ (f : Float → Float → Value ρ ε) (g : Float → Float → Value ρ' ε'),
      arithmetic kind = some f ∧ arithmetic kind = some g ∧ ∀ x y, (f x y).Rel P Q (g x y) := by
  unfold Value.arithmetic
  split
  case h_8 => exact .inl ⟨rfl, rfl⟩
  all_goals exact .inr ⟨_, _, rfl, rfl, fun x y => rfl⟩

theorem Rel.add {v' : Value ρ ε} {w' : Value ρ' ε'} (h : v.Rel P Q w) (h' : v'.Rel P Q w') :
    RelResult P Q (add v v') (add w w') := by
  unfold Rel at h h'
  split at h <;> split at h' <;> simp_all [Value.add, RelResult, Rel]

theorem Rel.binary {v' : Value ρ ε} {w' : Value ρ' ε'} (hP : ∀ f g, P f g → f.id = g.id)
    (h : v.Rel P Q w) (h' : v'.Rel P Q w') (kind : Kind) (lexeme : String) :
    RelResult P Q (binary kind lexeme v v') (binary kind lexeme w w') := by
  unfold Value.binary
  split
  · exact h.equal_eq hP h'
  · exact congrArg (! ·) (h.equal_eq hP h')
  · exact h.add h'
  · rcases Rel.arithmetic P Q kind with ⟨hf, hg⟩ | ⟨f, g, hf, hg, hr⟩
    · simp only [hf, hg]
      exact ⟨rfl, by simp⟩
    · simp only [hf, hg]
      unfold Rel at h h'
      split at h <;> split at h' <;> simp_all [RelResult]

end Value
end

namespace Lexical

/-- Environments, and the location that stands for each name of a local one. -/
structure World where
  envs : Environments
  place : Nat → String → Option Nat

namespace World
variable {W W' W'' : World} {s : Surroundings} {e p : Nat} {scope : Scope} {x : String}

structure Grows (W W' : World) : Prop where
  envs : W.envs.Grows W'.envs
  place : ∀ e x l, W.place e x = some l → W'.place e x = some l

theorem Grows.refl (W : World) : W.Grows W := ⟨.refl _, fun _ _ _ h => h⟩

theorem Grows.trans (h : W.Grows W') (h' : W'.Grows W'') : W.Grows W'' :=
  ⟨h.envs.trans h'.envs, fun e x l hl => h'.place e x l (h.place e x l hl)⟩

/-- From the environment, the names in scope at a place stand for what the scope says. -/
structure Shows (W : World) (e : Nat) (s : Surroundings) (scope : Scope) : Prop where
  exists_ : e < W.envs.frames.size
  global : s.scopes = [] → e = Machine.globals ∧ scope = .topLevel
  local_ : s.scopes ≠ [] → e ≠ Machine.globals ∧ ∃ b, scope = .local_ b
  found : ∀ x d, s.hops x = some d → ∃ a l, W.envs.ancestor? e d = some a ∧
    W.place a x = some l ∧ scope.location? x = some l
  free : ∀ x, s.hops x = none → scope.location? x = none

theorem Shows.mono (h : W.Shows e s scope) (hg : W.Grows W') : W'.Shows e s scope where
  exists_ := Nat.lt_of_lt_of_le h.exists_ hg.envs.size
  global := h.global
  local_ := h.local_
  found x d hd := by
    obtain ⟨a, l, ha, hl, hx⟩ := h.found x d hd
    exact ⟨a, l, hg.envs.ancestor ha, hg.place a x l hl, hx⟩
  free := h.free

/-- Only the names in scope matter. -/
theorem Shows.hops_congr {s' : Surroundings} (h : W.Shows e s scope)
    (hs : s'.scopes = [] ↔ s.scopes = []) (hh : ∀ x, s'.hops x = s.hops x) :
    W.Shows e s' scope :=
  ⟨h.exists_, fun hn => h.global (hs.1 hn), fun hn => h.local_ (mt hs.2 hn),
    fun x d hd => h.found x d (hh x ▸ hd), fun x hx => h.free x (hh x ▸ hx)⟩

/-- A new scope shows through to those around it. -/
theorem Shows.push (h : W.Shows p s scope) (he : e < W.envs.frames.size)
    (hl : W.envs.link? e = some p) (hlt : p < e) : W.Shows e (s.push []) scope.inner where
  exists_ := he
  global hn := nomatch hn
  local_ _ := by
    refine ⟨by unfold Machine.globals; omega, ?_⟩
    cases scope with
    | topLevel => exact ⟨_, rfl⟩
    | local_ b => exact ⟨b, rfl⟩
  found x d hd := by
    rw [Surroundings.hops_push] at hd
    obtain ⟨d', hd', rfl⟩ := Option.map_eq_some_iff.1 hd
    obtain ⟨a, l, ha, hx, hs⟩ := h.found x d' hd'
    refine ⟨a, l, ?_, hx, ?_⟩
    · rw [Environments.ancestor?_of_link hl hlt]
      exact ha
    · cases scope with
      | topLevel => cases hs
      | local_ b => exact hs
  free x hx := by
    rw [Surroundings.hops_push] at hx
    have hs := h.free x (Option.map_eq_none_iff.1 hx)
    cases scope with
    | topLevel => rfl
    | local_ b => exact hs

/-- A declaration in a local scope hides what the name stood for. -/
theorem Shows.bind {b : Bindings Nat} (h : W.Shows e s (.local_ b)) (hs : s.scopes ≠ []) (r : Bool)
    {l : Nat} (hl : W.place e x = some l) :
    W.Shows e (s.bind x r) (.local_ ((x, l) :: b)) where
  exists_ := h.exists_
  global hn := by
    obtain ⟨scopes, pending, activation, context⟩ := s
    cases scopes with
    | nil => exact absurd rfl hs
    | cons scope scopes => cases hn
  local_ _ := ⟨(h.local_ hs).1, _, rfl⟩
  found y d hd := by
    rw [Surroundings.hops_bind hs] at hd
    by_cases hx : x = y
    · rw [if_pos hx] at hd
      cases hd
      refine ⟨e, l, rfl, hx ▸ hl, ?_⟩
      simp [Scope.location?, Bindings.find?_cons, hx]
    · rw [if_neg hx] at hd
      obtain ⟨a, l', ha, hl', hy⟩ := h.found y d hd
      refine ⟨a, l', ha, hl', ?_⟩
      simpa [Scope.location?, Bindings.find?_cons, hx] using hy
  free y hy := by
    rw [Surroundings.hops_bind hs] at hy
    by_cases hx : x = y
    · rw [if_pos hx] at hy
      cases hy
    · rw [if_neg hx] at hy
      have hfree := h.free y hy
      simpa [Scope.location?, Bindings.find?_cons, hx] using hfree

/-- The same function, and its environment shows what its scope holds. The instance to give back
lies in the environment itself. -/
def SameFunction (W : World) (f : Closure) (g : Code) : Prop :=
  f.id = g.id ∧ f.isInitializer = g.isInitializer ∧
    ∃ s activation, f.Written s activation g.declaration ∧
      (f.isInitializer → s.hops "this" = some 0) ∧ W.Shows f.environment s g.environment

/-- The same method, before it is bound to an instance. -/
def SameMethod (W : World) (f : Closure) (g : Code) : Prop :=
  f.id = g.id ∧ f.isInitializer = g.isInitializer ∧
    ∃ s activation, f.Written (s.push [("this", true)]) activation g.declaration ∧
      W.Shows f.environment s g.environment

def Alike (W : World) (v : Value) (w : Datum) : Prop := v.Rel W.SameFunction W.SameMethod w

theorem SameFunction.mono {f : Closure} {g : Code} (h : W.SameFunction f g) (hg : W.Grows W') :
    W'.SameFunction f g := by
  obtain ⟨hid, hi, s, activation, hw, ht, hs⟩ := h
  exact ⟨hid, hi, s, activation, hw, ht, hs.mono hg⟩

theorem SameMethod.mono {f : Closure} {g : Code} (h : W.SameMethod f g) (hg : W.Grows W') :
    W'.SameMethod f g := by
  obtain ⟨hid, hi, s, activation, hw, hs⟩ := h
  exact ⟨hid, hi, s, activation, hw, hs.mono hg⟩

theorem Alike.mono {v : Value} {w : Datum} (h : W.Alike v w) (hg : W.Grows W') : W'.Alike v w :=
  Value.Rel.mono h (fun _ _ h => h.mono hg) fun _ _ h => h.mono hg

/-- Resolution leaves the name and the parameters of a function as they are. -/
theorem written_head {f : Closure} {activation : Activation} {g : RawFunction}
    (h : f.Written s activation g) :
    f.declaration.name = g.name ∧ f.declaration.parameters = g.parameters := by
  obtain ⟨name, parameters, body⟩ := g
  rw [h.declaration]
  exact ⟨rfl, rfl⟩

theorem SameFunction.name_eq {f : Closure} {g : Code} (h : W.SameFunction f g) :
    f.name = g.name := by
  obtain ⟨-, -, s, activation, hw, -⟩ := h
  exact congrArg Token.lexeme (written_head hw).1

theorem SameFunction.arity_eq {f : Closure} {g : Code} (h : W.SameFunction f g) :
    f.arity = g.arity := by
  obtain ⟨-, -, s, activation, hw, -⟩ := h
  exact congrArg List.length (written_head hw).2

theorem SameMethod.arity_eq {f : Closure} {g : Code} (h : W.SameMethod f g) :
    f.arity = g.arity := by
  obtain ⟨-, -, s, activation, hw, -⟩ := h
  exact congrArg List.length (written_head hw).2

/-- Classes agree on whether there is an initializer, and on what it takes. -/
theorem class_arity_eq {c : Class} {d : Blueprint} (h : c.Rel W.SameMethod d) :
    c.arity = d.arity := by
  unfold Class.arity Class.initializer
  rcases h.findMethod Function.initializerName with ⟨hc, hd⟩ | ⟨f, g, hc, hd, hfg⟩
  · rw [hc, hd]
    rfl
  · rw [hc, hd]
    exact hfg.arity_eq

theorem Alike.arity?_eq {v : Value} {w : Datum} (h : W.Alike v w) : v.arity? = w.arity? := by
  unfold Alike Value.Rel at h
  split at h
  case h_5 => rw [h]; rfl
  case h_6 => exact congrArg some (SameFunction.arity_eq h)
  case h_7 => exact congrArg some (class_arity_eq h)
  all_goals first | rfl | exact h.elim

theorem Alike.text_eq {v : Value} {w : Datum} (h : W.Alike v w) : v.text = w.text := by
  unfold Alike Value.Rel at h
  split at h
  case h_2 a b => subst h; cases a <;> rfl
  case h_3 => rw [h]; rfl
  case h_4 => rw [h]; rfl
  case h_6 => simp only [Value.text, SameFunction.name_eq h]
  case h_7 => exact h.name_eq
  case h_8 => simp only [Value.text, h.2.name_eq]
  all_goals first | rfl | exact h.elim

end World
end Lexical
end Lox

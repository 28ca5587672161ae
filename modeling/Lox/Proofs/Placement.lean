import Lox.Proofs.Resolution
import Lox.Proofs.Spelling

/-! Places in an accepted program. Where a class stands around a place, `this` is in scope there,
and where that class has a superclass, `super` lies in the scope just outside that of `this`. -/

namespace Lox
namespace Surroundings
variable {s : Surroundings} {b : Bindings Bool} {x name : String} {t : Token} {r : Bool}

theorem hops_push (s : Surroundings) (b : Bindings Bool) (x : String) :
    (s.push b).hops x = if (b.find? x).isSome then some 0 else (s.hops x).map (· + 1) := by
  simp only [hops, push, List.findIdx?_cons]

theorem unready_push (s : Surroundings) (b : Bindings Bool) (x : String) :
    (s.push b).unready x = (b.find? x == some false) := rfl

theorem bind_of_global (h : s.scopes = []) (name : String) (r : Bool) : s.bind name r = s := by
  simp [bind, h]

theorem bind_scopes_eq_nil (s : Surroundings) (name : String) (r : Bool) :
    (s.bind name r).scopes = [] ↔ s.scopes = [] := by
  obtain ⟨scopes, pending, activation, context⟩ := s
  cases scopes <;> simp [bind]

theorem bind_scopes_ne (h : s.scopes ≠ []) (name : String) (r : Bool) :
    (s.bind name r).scopes ≠ [] :=
  mt (bind_scopes_eq_nil s name r).1 h

theorem hops_of_global (h : s.scopes = []) (x : String) : s.hops x = none := by
  simp [hops, h]

theorem hops_bind (h : s.scopes ≠ []) (name x : String) (r : Bool) :
    (s.bind name r).hops x = if name = x then some 0 else s.hops x := by
  obtain ⟨scopes, pending, activation, context⟩ := s
  cases scopes with
  | nil => exact absurd rfl h
  | cons scope scopes =>
    simp only [hops, bind, List.findIdx?_cons, Bindings.find?_put]
    by_cases hx : name = x <;> simp [hx]

theorem hops_bind_self (h : (s.bind name r).scopes ≠ []) : (s.bind name r).hops name = some 0 := by
  have hs : s.scopes ≠ [] := by
    intro hs
    rw [bind_of_global hs] at h
    exact h hs
  rw [hops_bind hs, if_pos rfl]

theorem hops_bind_ready (s : Surroundings) (name x : String) (r r' : Bool) :
    (s.bind name r).hops x = (s.bind name r').hops x := by
  by_cases hs : s.scopes = []
  · rw [bind_of_global hs, bind_of_global hs]
  · rw [hops_bind hs, hops_bind hs]

theorem unready_bind (h : s.scopes ≠ []) (name x : String) (r : Bool) :
    (s.bind name r).unready x = if name = x then !r else s.unready x := by
  obtain ⟨scopes, pending, activation, context⟩ := s
  cases scopes with
  | nil => exact absurd rfl h
  | cons scope scopes =>
    simp only [unready, bind, List.head?_cons, Option.bind_some, Bindings.find?_put]
    by_cases hx : name = x
    · cases r <;> simp [hx]
    · simp [hx]

theorem misread_bind (hn : name ≠ t.lexeme) (s : Surroundings) (r : Bool) :
    (s.bind name r).misread t = s.misread t := by
  obtain ⟨scopes, pending, activation, context⟩ := s
  cases scopes with
  | nil => rfl
  | cons scope scopes => simp only [misread, bind, Bindings.find?_put, if_neg hn]

theorem hops_bind_of_ne (hn : name ≠ x) (s : Surroundings) (r : Bool) :
    (s.bind name r).hops x = s.hops x := by
  by_cases hs : s.scopes = []
  · rw [bind_of_global hs]
  · rw [hops_bind hs, if_neg hn]

@[simp] theorem scopes_initializing (s : Surroundings) (name : Token) :
    (s.initializing name).scopes = s.scopes := by
  unfold initializing
  split <;> rfl

@[simp] theorem hops_initializing (s : Surroundings) (name : Token) (x : String) :
    (s.initializing name).hops x = s.hops x := by
  unfold initializing
  split <;> rfl

@[simp] theorem unready_initializing (s : Surroundings) (name : Token) (x : String) :
    (s.initializing name).unready x = s.unready x := by
  unfold initializing
  split <;> rfl

@[simp] theorem context_initializing (s : Surroundings) (name : Token) :
    (s.initializing name).context = s.context := by
  unfold initializing
  split <;> rfl

@[simp] theorem activation_initializing (s : Surroundings) (name : Token) :
    (s.initializing name).activation = s.activation := by
  unfold initializing
  split <;> rfl

@[simp] theorem context_bind (s : Surroundings) (name : String) (r : Bool) :
    (s.bind name r).context = s.context := by
  unfold bind
  split <;> rfl

@[simp] theorem activation_bind (s : Surroundings) (name : String) (r : Bool) :
    (s.bind name r).activation = s.activation := by
  unfold bind
  split <;> rfl

/-- What `this` and `super` mean is fixed by the scopes. -/
structure Lawful (s : Surroundings) : Prop where
  this : s.context ≠ .outside → ∃ d, s.hops "this" = some d
  super : s.context = .subclass → ∃ d, s.hops "this" = some d ∧ s.hops "super" = some (d + 1)
  thisReady : s.unready "this" = false
  superReady : s.unready "super" = false

/-- No name of the innermost scope waits for its initializer. -/
def Settled (s : Surroundings) : Prop := ∀ x, s.unready x = false

theorem lawful_topLevel : topLevel.Lawful where
  this h := absurd rfl h
  super h := nomatch h
  thisReady := rfl
  superReady := rfl

theorem settled_topLevel : topLevel.Settled := fun _ => rfl

/-- A name that is no keyword changes nothing about `this` and `super`. -/
theorem Lawful.bind (h : s.Lawful) (hthis : name ≠ "this") (hsuper : name ≠ "super") (r : Bool) :
    (s.bind name r).Lawful := by
  by_cases hs : s.scopes = []
  · rwa [bind_of_global hs]
  · have ht : (s.bind name r).hops "this" = s.hops "this" := by rw [hops_bind hs, if_neg hthis]
    have hu : (s.bind name r).hops "super" = s.hops "super" := by rw [hops_bind hs, if_neg hsuper]
    constructor
    · rw [context_bind, ht]; exact h.this
    · rw [context_bind, ht, hu]; exact h.super
    · rw [unready_bind hs, if_neg hthis]; exact h.thisReady
    · rw [unready_bind hs, if_neg hsuper]; exact h.superReady

theorem Lawful.initializing (h : s.Lawful) (name : Token) : (s.initializing name).Lawful := by
  constructor
  · simpa using h.this
  · simpa using h.super
  · simpa using h.thisReady
  · simpa using h.superReady

/-- Scopes without `this` and `super` only add a step on the way to them. -/
theorem Lawful.push (h : s.Lawful) (hthis : b.find? "this" = none)
    (hsuper : b.find? "super" = none) : (s.push b).Lawful := by
  have ht : (s.push b).hops "this" = (s.hops "this").map (· + 1) := by simp [hops_push, hthis]
  have hu : (s.push b).hops "super" = (s.hops "super").map (· + 1) := by simp [hops_push, hsuper]
  constructor
  · intro hc
    obtain ⟨d, hd⟩ := h.this hc
    exact ⟨d + 1, by rw [ht, hd]; rfl⟩
  · intro hc
    obtain ⟨d, hd, he⟩ := h.super hc
    exact ⟨d + 1, by rw [ht, hd]; rfl, by rw [hu, he]; rfl⟩
  · simp [unready_push, hthis]
  · simp [unready_push, hsuper]

theorem Lawful.inActivation (h : s.Lawful) (activation : Activation) :
    ({ s with activation } : Surroundings).Lawful :=
  ⟨h.this, h.super, h.thisReady, h.superReady⟩

/-- The scopes of a class establish what its methods may use. -/
theorem lawful_ofMethods (s : Surroundings) (isSubclass : Bool) :
    (s.ofMethods isSubclass).Lawful := by
  cases isSubclass with
  | false =>
    constructor
    · exact fun _ => ⟨0, rfl⟩
    · exact fun h => nomatch h
    · rfl
    · rfl
  | true =>
    constructor
    · exact fun _ => ⟨0, rfl⟩
    · exact fun _ => ⟨0, rfl, rfl⟩
    · rfl
    · rfl

theorem Settled.bind (h : s.Settled) (name : String) : (s.bind name true).Settled := by
  intro x
  by_cases hs : s.scopes = []
  · rw [bind_of_global hs]; exact h x
  · rw [unready_bind hs]
    split
    · rfl
    · exact h x

theorem settled_push (h : ∀ x, b.find? x ≠ some false) : (s.push b).Settled := by
  intro x
  simp [unready_push, h x]

theorem settled_push_singleton (s : Surroundings) (name : String) :
    (s.push [(name, true)]).Settled :=
  settled_push fun _ h => Bool.noConfusion (Bindings.eq_of_find?_singleton h).2

def parameterScope (parameters : List Token) : Bindings Bool :=
  parameters.foldl (fun b p => b.put p.lexeme true) []

theorem withParameters_push (s : Surroundings) (b : Bindings Bool) (parameters : List Token) :
    (s.push b).withParameters parameters =
      s.push (parameters.foldl (fun b p => b.put p.lexeme true) b) := by
  induction parameters generalizing b with
  | nil => rfl
  | cons p ps ih => exact ih (b.put p.lexeme true)

theorem entering_eq (s : Surroundings) (activation : Activation) (parameters : List Token) :
    s.entering activation parameters =
      ({ s with activation } : Surroundings).push (parameterScope parameters) :=
  withParameters_push _ [] parameters

theorem find?_foldl_put (b : Bindings Bool) (parameters : List Token) (x : String) :
    (parameters.foldl (fun b p => b.put p.lexeme true) b).find? x =
      if x ∈ parameters.map Token.lexeme then some true else b.find? x := by
  induction parameters generalizing b with
  | nil => simp
  | cons p ps ih =>
    rw [List.foldl_cons, ih, Bindings.find?_put]
    by_cases hx : x ∈ ps.map Token.lexeme
    · simp [hx]
    · by_cases hp : p.lexeme = x
      · simp [hp]
      · simp [hx, hp, Ne.symm hp]

theorem find?_parameterScope (parameters : List Token) (x : String) :
    (parameterScope parameters).find? x =
      if x ∈ parameters.map Token.lexeme then some true else none :=
  find?_foldl_put [] parameters x

theorem settled_entering (s : Surroundings) (activation : Activation) (parameters : List Token) :
    (s.entering activation parameters).Settled := by
  rw [entering_eq]
  refine settled_push fun x => ?_
  rw [find?_parameterScope]
  split <;> simp

theorem Lawful.entering (h : s.Lawful) (activation : Activation) {parameters : List Token}
    (hp : ∀ p ∈ parameters, p.Names Token.Spelled) :
    (s.entering activation parameters).Lawful := by
  have hfree (word : String) (hw : ∀ p : Token, p.Names Token.Spelled → p.lexeme ≠ word) :
      (parameterScope parameters).find? word = none := by
    rw [find?_parameterScope, if_neg]
    intro hm
    obtain ⟨p, hpm, he⟩ := List.mem_map.1 hm
    exact hw p (hp p hpm) he
  rw [entering_eq]
  exact (h.inActivation activation).push (hfree _ fun _ => Token.lexeme_ne_this)
    (hfree _ fun _ => Token.lexeme_ne_super)

end Surroundings

theorem Resolver.methodActivation_ne (f : RawFunction) : methodActivation f ≠ .topLevel := by
  unfold methodActivation
  split <;> simp

namespace Stmt
variable {ρ : Type} {s : Surroundings} {st : RawStmt}

theorem after_of_isPlain {T : Token → Prop} (h : st.Regular T) (hp : st.isPlain) :
    after s st = s := by
  fun_induction after s st with
  | case1 => cases hp
  | case2 => cases hp
  | case3 => cases hp
  | case4 s line condition thenBranch ih => exact ih h.2.1 h.2.2
  | case5 s line condition thenBranch elseBranch ih₁ ih₂ =>
    exact (ih₂ h.2.2.1 h.2.2.2).trans (ih₁ h.2.1.1 h.2.1.2)
  | case6 s line condition body ih => exact ih h.2.1 h.2.2
  | case7 => rfl
  | case8 => rfl
  | case9 => rfl
  | case10 => rfl

@[simp] theorem activation_after (s : Surroundings) (st : RawStmt) :
    (after s st).activation = s.activation := by
  have h := congrArg Surroundings.activation (pop_after s st)
  exact h

@[simp] theorem context_after (s : Surroundings) (st : RawStmt) :
    (after s st).context = s.context := by
  have h := congrArg Surroundings.context (pop_after s st)
  exact h

def declared? : Stmt ρ → Option Token
  | var name _ | function (.mk name ..) | class_ _ name .. => some name
  | _ => none

theorem after_of_declared {name : Token} (h : st.declared? = some name) :
    after s st = s.bind name.lexeme true := by
  cases st with
  | var n _ => cases h; rfl
  | function f => cases f; cases h; rfl
  | class_ _ n _ _ => cases h; rfl
  | _ => cases h

theorem isPlain_of_not_declared (h : st.declared? = none) : st.isPlain := by
  cases st with
  | function f => cases f; cases h
  | var => cases h
  | class_ => cases h
  | _ => rfl

theorem names_of_declared {T : Token → Prop} (h : st.Regular T) {name : Token}
    (hn : st.declared? = some name) : name.Names T := by
  cases st with
  | var n _ => cases hn; exact h.1
  | function f => cases f; cases hn; exact h.1
  | class_ _ n _ _ => cases hn; exact h.1
  | _ => cases hn

theorem redeclared_of_problems {name : Token} (hp : st.problems s = [])
    (hn : st.declared? = some name) : s.redeclared name = [] := by
  cases st with
  | var n _ => cases hn; exact (List.append_eq_nil_iff.1 hp).1
  | function f => cases f; cases hn; exact (List.append_eq_nil_iff.1 hp).1
  | class_ _ n _ _ =>
    cases hn
    exact (List.append_eq_nil_iff.1 (List.append_eq_nil_iff.1 hp).1).1
  | _ => cases hn

theorem lawful_after (hs : s.Lawful) (h : st.Regular Token.Spelled) : (after s st).Lawful := by
  cases hn : st.declared? with
  | none => rwa [after_of_isPlain h (isPlain_of_not_declared hn)]
  | some name =>
    have hname := names_of_declared h hn
    rw [after_of_declared hn]
    exact hs.bind (Token.lexeme_ne_this hname) (Token.lexeme_ne_super hname) true

theorem settled_after {T : Token → Prop} (hs : s.Settled) (h : st.Regular T) :
    (after s st).Settled := by
  cases hn : st.declared? with
  | none => rwa [after_of_isPlain h (isPlain_of_not_declared hn)]
  | some name => rw [after_of_declared hn]; exact hs.bind name.lexeme

/-- At the top level, declarations put no name in scope. -/
theorem after_of_global (h : s.scopes = []) (st : RawStmt) : after s st = s := by
  fun_induction after s st <;> simp_all [Surroundings.bind_of_global]

theorem boundList_append (h : s.scopes = []) (ss ts : List RawStmt) :
    boundList s (ss ++ ts) = boundList s ss ++ boundList s ts := by
  induction ss with
  | nil => rfl
  | cons st ss ih => simp only [List.cons_append, boundList, after_of_global h, ih]

theorem problemsList_append (h : s.scopes = []) (ss ts : List RawStmt) :
    problemsList s (ss ++ ts) = problemsList s ss ++ problemsList s ts := by
  induction ss with
  | nil => rfl
  | cons st ss ih =>
    simp only [List.cons_append, problemsList, after_of_global h, ih, List.append_assoc]

end Stmt
end Lox

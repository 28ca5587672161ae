import Lox.Machine
import Lox.Proofs.Chains

/-! Forests of environments. However a forest has grown, each of its names is read and rebound in
one environment only, the nearest on the chain that binds it, and it makes no difference whether
that is searched for or counted. -/

namespace Lox
namespace Environments

/-- One step in the growth of a forest. -/
inductive Step (s : Environments) : Environments → Prop
  | create {enclosing : Option Nat} (b : Bindings Value) :
      (∀ p ∈ enclosing, p < s.frames.size) → Step s (s.create enclosing b).2
  | define {e : Nat} (x : String) (v : Value) : e < s.frames.size → Step s (s.define e x v)
  | assign {e : Nat} {x : String} {v : Value} {t : Environments} : e < s.frames.size →
      s.assign? e x v = some t → Step s t
  | assignAt {e d : Nat} {x : String} {v : Value} {t : Environments} : e < s.frames.size →
      s.assignAt e d x v = .ok t → Step s t

/-- What grows from nothing, step by step. -/
inductive Built : Environments → Prop
  | empty : Built empty
  | step {s t : Environments} : Built s → s.Step t → Built t

/-- `t` is `s` with `x` bound to the value in the environment `a`, and nothing else. -/
structure Rebinds (s t : Environments) (a : Nat) (x : String) (v : Value) : Prop where
  size : t.frames.size = s.frames.size
  link : ∀ e, t.link? e = s.link? e
  find : ∀ e y, t.find? e y = if e = a ∧ y = x then some v else s.find? e y

/-- How names are read and rebound. -/
structure Governed (s : Environments) : Prop where
  get_isSome : ∀ e x, (s.get? e x).isSome ↔ ∃ d a, s.Outward e d a ∧ (s.find? a x).isSome
  assign_isSome : ∀ e x v,
    (s.assign? e x v).isSome ↔ ∃ d a, s.Outward e d a ∧ (s.find? a x).isSome
  get : ∀ {x e d a}, s.Nearest x e d a → s.get? e x = s.find? a x
  /-- Whoever sees the binding that was read sees the new value in its place; all else that is
  seen from anywhere is as it was. -/
  assign : ∀ {x e d a v t}, s.Nearest x e d a → s.assign? e x v = some t →
    s.Rebinds t a x v ∧
      (∀ e' d', s.Nearest x e' d' a → t.get? e' x = some v) ∧
      ∀ e' y, ¬(y = x ∧ ∃ d', s.Nearest x e' d' a) → t.get? e' y = s.get? e' y
  define : ∀ {e}, e < s.frames.size → ∀ x v, s.Rebinds (s.define e x v) e x v
  getAt : ∀ {x e d a}, s.Nearest x e d a → ∃ v, s.get? e x = some v ∧ s.getAt e d x = .ok v
  assignAt : ∀ {x e d a}, s.Nearest x e d a →
    ∀ v, ∃ t, s.assign? e x v = some t ∧ s.assignAt e d x v = .ok t
  getAt_error : ∀ e d x f, s.getAt e d x = .error f ↔
    ((∀ a, ¬s.Outward e d a) ∧ f = .noAncestor d) ∨
      ((∃ a, s.Outward e d a ∧ s.find? a x = none) ∧ f = .unbound x)
  assignAt_error : ∀ e d x v f, s.assignAt e d x v = .error f ↔
    (∀ a, ¬s.Outward e d a) ∧ f = .noAncestor d

variable {s t : Environments} {e d a : Nat} {x : String} {v : Value}

theorem lt_size_of_isSome (h : (s.find? a x).isSome) : a < s.frames.size := by
  rcases Nat.lt_or_ge a s.frames.size with hlt | hge
  · exact hlt
  · rw [find?_of_size_le hge] at h
    cases h

theorem rebinds_define (h : a < s.frames.size) (x : String) (v : Value) :
    s.Rebinds (s.define a x v) a x v where
  size := size_define s a x v
  link e := link?_define s a e x v
  find e y := by
    rw [find?_define h]
    simp only [eq_comm]

section rebinding
variable (h : s.Rebinds t a x v) (ha : (s.find? a x).isSome)
include h ha

/-- Rebinding a name where it is bound changes no search. -/
theorem Rebinds.owner?_eq (y : String) (e : Nat) : t.owner? y e = s.owner? y e := by
  refine owner?_congr h.link (fun e => ?_) e
  rw [h.find]
  split
  · next he =>
    rw [he.1, he.2, ha]
    rfl
  · rfl

theorem Rebinds.get?_self (he : s.owner? x e = some a) : t.get? e x = some v := by
  rw [get?, h.owner?_eq ha, he, Option.bind_some, h.find, if_pos ⟨rfl, rfl⟩]

theorem Rebinds.get?_other {y : String} (hne : ¬(y = x ∧ s.owner? x e = some a)) :
    t.get? e y = s.get? e y := by
  rw [get?, get?, h.owner?_eq ha]
  cases ho : s.owner? y e with
  | none => rfl
  | some b =>
    have hb : ¬(b = a ∧ y = x) := by
      rintro ⟨rfl, rfl⟩
      exact hne ⟨rfl, ho⟩
    rw [Option.bind_some, Option.bind_some, h.find, if_neg hb]

end rebinding

theorem linked_empty : empty.Linked := fun e p h => by simp [link?, empty] at h

theorem Linked.create (hs : s.Linked) {enclosing : Option Nat}
    (hp : ∀ p ∈ enclosing, p < s.frames.size) (b : Bindings Value) :
    (s.create enclosing b).2.Linked := by
  intro e p h
  rw [link?_create] at h
  split at h
  · next he => exact he ▸ hp p h
  · exact hs e p h

theorem Linked.define (hs : s.Linked) (a : Nat) (x : String) (v : Value) :
    (s.define a x v).Linked :=
  fun e p h => hs e p ((link?_define s a e x v).symm.trans h)

theorem assignAt_eq_ok {t : Environments} :
    s.assignAt e d x v = .ok t ↔ ∃ a, s.ancestor? e d = some a ∧ s.define a x v = t := by
  unfold assignAt ancestor
  cases s.ancestor? e d <;> simp

theorem Linked.step (hs : s.Linked) (h : s.Step t) : t.Linked := by
  cases h with
  | create b hp => exact hs.create hp b
  | define x v he => exact hs.define _ x v
  | assign _ h =>
    obtain ⟨a, -, rfl⟩ := Option.map_eq_some_iff.1 h
    exact hs.define a _ _
  | assignAt _ h =>
    obtain ⟨a, -, rfl⟩ := assignAt_eq_ok.1 h
    exact hs.define a _ _

theorem Built.linked (h : s.Built) : s.Linked := by
  induction h with
  | empty => exact linked_empty
  | step _ hst ih => exact ih.step hst

section
variable (hs : s.Linked)
include hs

theorem Linked.get?_isSome_iff :
    (s.get? e x).isSome ↔ ∃ d a, s.Outward e d a ∧ (s.find? a x).isSome := by
  rw [← hs.owner?_isSome_iff, get?]
  cases ho : s.owner? x e with
  | none => simp
  | some a =>
    obtain ⟨d, hn⟩ := hs.owner?_eq_some_iff.1 ho
    simp [hn.binds]

theorem Linked.get?_nearest (h : s.Nearest x e d a) : s.get? e x = s.find? a x := by
  rw [get?, hs.owner?_eq_some_iff.2 ⟨d, h⟩, Option.bind_some]

theorem Linked.assign?_nearest (h : s.Nearest x e d a) (v : Value) :
    s.assign? e x v = some (s.define a x v) := by
  rw [assign?, hs.owner?_eq_some_iff.2 ⟨d, h⟩, Option.map_some]

/-- Who does not find an environment that many links out finds no name there either. -/
theorem Linked.ancestor_eq (e d : Nat) :
    (∃ a, s.Outward e d a ∧ s.ancestor e d = .ok a) ∨
      (∀ a, ¬s.Outward e d a) ∧ s.ancestor e d = .error (.noAncestor d) := by
  unfold ancestor
  cases ha : s.ancestor? e d with
  | some a => exact .inl ⟨a, hs.ancestor?_eq_some_iff.1 ha, rfl⟩
  | none =>
    refine .inr ⟨fun a ho => ?_, rfl⟩
    rw [hs.ancestor?_eq_some_iff.2 ho] at ha
    cases ha

theorem Linked.getAt_eq_error {f : Fault} :
    s.getAt e d x = .error f ↔ ((∀ a, ¬s.Outward e d a) ∧ f = .noAncestor d) ∨
      ((∃ a, s.Outward e d a ∧ s.find? a x = none) ∧ f = .unbound x) := by
  unfold getAt
  obtain ⟨a, ho, ha⟩ | ⟨hn, ha⟩ := hs.ancestor_eq e d
  · have hsome : ¬∀ a, ¬s.Outward e d a := fun hn => hn a ho
    have hat : (∃ a', s.Outward e d a' ∧ s.find? a' x = none) ↔ s.find? a x = none :=
      ⟨fun ⟨a', ho', hx⟩ => ho.unique ho' ▸ hx, fun hx => ⟨a, ho, hx⟩⟩
    rw [ha, hat]
    cases hx : s.find? a x with
    | none => simp [hx, hsome, eq_comm]
    | some v => simp [hx, hsome]
  · simp [ha, hn, eq_comm]

theorem Linked.assignAt_eq_error {f : Fault} :
    s.assignAt e d x v = .error f ↔ (∀ a, ¬s.Outward e d a) ∧ f = .noAncestor d := by
  unfold assignAt
  obtain ⟨a, ho, ha⟩ | ⟨hn, ha⟩ := hs.ancestor_eq e d
  · have hsome : ¬∀ a, ¬s.Outward e d a := fun hn => hn a ho
    simp [ha, hsome]
  · simp [ha, hn, eq_comm]

theorem governed_of_linked : s.Governed where
  get_isSome e x := hs.get?_isSome_iff
  assign_isSome e x v := by
    rw [← hs.owner?_isSome_iff, assign?, Option.isSome_map]
  get := hs.get?_nearest
  assign {x e d a v t} hn ht := by
    rw [hs.assign?_nearest hn v] at ht
    cases ht
    have hr := rebinds_define (lt_size_of_isSome hn.binds) x v
    refine ⟨hr, fun e' d' hn' => hr.get?_self hn.binds (hs.owner?_eq_some_iff.2 ⟨d', hn'⟩), ?_⟩
    exact fun e' y hy => hr.get?_other hn.binds fun hc =>
      hy ⟨hc.1, hs.owner?_eq_some_iff.1 hc.2⟩
  define he x v := rebinds_define he x v
  getAt hn := by
    obtain ⟨v, hv⟩ := Option.isSome_iff_exists.1 hn.binds
    exact ⟨v, (hs.get?_nearest hn).trans hv,
      getAt_eq_ok.2 ⟨_, hs.ancestor?_eq_some_iff.2 hn.outward, hv⟩⟩
  assignAt hn v := ⟨_, hs.assign?_nearest hn v,
    assignAt_eq_ok.2 ⟨_, hs.ancestor?_eq_some_iff.2 hn.outward, rfl⟩⟩
  getAt_error _ _ _ _ := hs.getAt_eq_error
  assignAt_error _ _ _ _ _ := hs.assignAt_eq_error

end
end Environments

/-- How a program reads and rebinds names on the machine. Where that fails, the machine is left as
it was. -/
structure Machine.Abides (m : Machine) : Prop where
  lookUp : ∀ name : Token, Eval.lookUp name none m =
    match m.environments.get? Machine.globals name.lexeme with
    | some v => .ok v m
    | none => .error (.runtime ⟨.undefinedVariable name.lexeme, some name.line⟩) m
  lookUp_at : ∀ (name : Token) d, Eval.lookUp name (some d) m =
    match m.environments.getAt m.current d name.lexeme with
    | .ok v => .ok v m
    | .error f => .error (.fault f) m
  assignFrom : ∀ e (name : Token) v, Eval.assignFrom e name v m =
    match m.environments.assign? e name.lexeme v with
    | some environments => .ok () { m with environments }
    | none => .error (.runtime ⟨.undefinedVariable name.lexeme, some name.line⟩) m
  assign : ∀ (name : Token) v, Eval.assign name none v m = Eval.assignFrom Machine.globals name v m
  assign_at : ∀ (name : Token) d v, Eval.assign name (some d) v m =
    match m.environments.assignAt m.current d name.lexeme v with
    | .ok environments => .ok () { m with environments }
    | .error f => .error (.fault f) m

theorem Eval.get_bind {α : Type} (f : Machine → Eval α) (m : Machine) : (get >>= f) m = f m m := rfl

theorem Machine.abides (m : Machine) : m.Abides where
  lookUp name := by
    rw [Eval.lookUp, Eval.get_bind]
    cases m.environments.get? Machine.globals name.lexeme <;> rfl
  lookUp_at name d := by
    rw [Eval.lookUp, Eval.get_bind]
    dsimp only
    cases m.environments.getAt m.current d name.lexeme <;> rfl
  assignFrom e name v := by
    rw [Eval.assignFrom, Eval.get_bind, Environments.assign?]
    cases m.environments.owner? name.lexeme e <;> rfl
  assign _ _ := rfl
  assign_at name d v := by
    rw [Eval.assign, Eval.get_bind, Environments.assignAt]
    cases m.environments.ancestor m.current d <;> rfl

/-- However environments were created, added to and assigned to, each name is read and rebound in
the one environment that binds it nearest, searched for or counted; and on a machine that has them,
a reading or an assignment that fails changes nothing. -/
theorem Environments.Built.governed {s : Environments} (h : s.Built) :
    s.Governed ∧ ∀ m : Machine, m.environments = s → m.Abides :=
  ⟨Environments.governed_of_linked h.linked, fun m _ => m.abides⟩

namespace Environments

/-- Three environments in each other. The middle one has an `x` of its own, the innermost one sees
just that; a fourth one beside the middle one sees the `x` of the outermost one. -/
def shadowing : Environments :=
  let s := (empty.create none [("x", .string "outer")]).2
  let s := (s.create (some 0) [("x", .string "middle")]).2
  let s := (s.create (some 1) []).2
  (s.create (some 0) []).2

theorem built_shadowing : shadowing.Built :=
  .step (.step (.step (.step .empty
    (.create _ (by simp)))
    (.create _ (by decide)))
    (.create _ (by decide)))
    (.create _ (by decide))

/-- An assignment from the innermost environment is seen there and in the middle one, but not from
beside them. -/
theorem governed_shadowing :
    shadowing.Built ∧ shadowing.Governed ∧
      ∃ t, shadowing.assign? 2 "x" (.string "new") = some t ∧
        shadowing.assignAt 2 1 "x" (.string "new") = .ok t ∧
        t.get? 2 "x" = some (.string "new") ∧ t.get? 1 "x" = some (.string "new") ∧
        t.get? 3 "x" = shadowing.get? 3 "x" := by
  have hg := built_shadowing.governed.1
  have h₁ : shadowing.Nearest "x" 1 0 1 := .self rfl
  have h₂ : shadowing.Nearest "x" 2 1 1 := h₁.link rfl rfl
  have h₃ : shadowing.Nearest "x" 3 1 0 := Nearest.link (.self rfl) rfl rfl
  obtain ⟨t, ht, hat⟩ := hg.assignAt h₂ (.string "new")
  obtain ⟨-, hsame, hother⟩ := hg.assign h₂ ht
  refine ⟨built_shadowing, hg, t, ht, hat, hsame 2 1 h₂, hsame 1 0 h₁, hother 3 "x" ?_⟩
  rintro ⟨-, d, h⟩
  cases (h.unique h₃).2

end Environments
end Lox

import Lox.Proofs.Construction
import Lox.Proofs.Household

/-! Estates. On a machine with a register, every instance that a value refers to exists, and each
method that was bound to an instance has `this` bound to it, just around it. So an instance that is
new is one that nothing refers to. -/

namespace Lox

/-- A machine that has gone on, without rebinding `this`. -/
structure Machine.Extends (m m' : Machine) : Prop where
  created : m.created ≤ m'.created
  objects : m.objects.size ≤ m'.objects.size
  environments : m.environments.Retains m'.environments

theorem Machine.Extends.trans {m m' m'' : Machine} (h : m.Extends m') (h' : m'.Extends m'') :
    m.Extends m'' :=
  ⟨Nat.le_trans h.created h'.created, Nat.le_trans h.objects h'.objects,
    h.environments.trans h'.environments⟩

structure Closure.Waits (x : String) (f : Closure) : Prop where
  seated : ∃ seat, Stmt.FunctionSeated seat f.declaration
  name : f.declaration.name.lexeme = x
  isInitializer : f.isInitializer = f.declaration.isInitializer

namespace Class

/-- The methods of the class and of those it inherits from pass under their names. -/
def Each (P : String → Closure → Prop) : Class → Prop
  | root _ _ methods => ∀ x f, methods.find? x = some f → P x f
  | derived _ _ methods superclass =>
    (∀ x f, methods.find? x = some f → P x f) ∧ superclass.Each P

variable {P : String → Closure → Prop} {c : Class}

theorem Each.findMethod (h : c.Each P) {x : String} {f : Closure} (hf : c.findMethod x = some f) :
    P x f := by
  induction c with
  | root id name methods => exact h x f hf
  | derived id name methods superclass ih =>
    unfold Class.findMethod at hf
    split at hf
    · next hm => cases hf; exact h.1 x f hm
    · exact ih h.2 hf

end Class

namespace Register

/-- The function can be entered: one that is bound to an instance finds it around itself. -/
structure Enters (R : Register) (m : Machine) (f : Closure) : Prop where
  created : f.id < m.created
  seated : ∃ seat, Stmt.FunctionSeated seat f.declaration
  isInitializer : f.isInitializer = ((R f.id).isSome && f.declaration.isInitializer)
  this : ∀ v ∈ R f.id, m.environments.find? f.environment "this" = some v

def Holds (R : Register) (m : Machine) : Value → Prop
  | .function f => R.Enters m f
  | .class_ c => c.Each Closure.Waits
  | .object ref c => ref < m.objects.size ∧ c.Each Closure.Waits
  | _ => True

structure Keeps (R : Register) (m : Machine) : Prop where
  globals : 0 < m.environments.frames.size
  bound : ∀ (e : Nat) (x : String) (v : Value), m.environments.find? e x = some v → R.Holds m v
  fields : ∀ (ref : Nat) (b : Bindings Value) (x : String) (v : Value),
    m.objects[ref]? = some b → b.find? x = some v → R.Holds m v

def Agrees (created : Nat) (R R' : Register) : Prop := ∀ id < created, R' id = R id

end Register

section
variable {R R' : Register} {m m' : Machine} {f : Closure} {x : String} {v : Value}

namespace Register

theorem Enters.mono (h : R.Enters m f) (hR : Agrees m.created R R') (hm : m.Extends m') :
    R'.Enters m' f where
  created := Nat.lt_of_lt_of_le h.created hm.created
  seated := h.seated
  isInitializer := by rw [hR f.id h.created, h.isInitializer]
  this v hv := hm.environments.this _ _ (h.this v (hR f.id h.created ▸ hv))

theorem Holds.mono (h : R.Holds m v) (hR : Agrees m.created R R') (hm : m.Extends m') :
    R'.Holds m' v := by
  cases v with
  | function f => exact Enters.mono h hR hm
  | object ref c => exact ⟨Nat.lt_of_lt_of_le h.1 hm.objects, h.2⟩
  | class_ c => exact h
  | _ => trivial

theorem Keeps.mono (h : R.Keeps m) (hR : Agrees m.created R R') (hm : m.Extends m')
    (hbound : ∀ e x v, m'.environments.find? e x = some v →
      m.environments.find? e x = some v ∨ R'.Holds m' v)
    (hfields : ∀ (ref : Nat) b x v, m'.objects[ref]? = some b → b.find? x = some v →
      (∃ b', m.objects[ref]? = some b' ∧ b'.find? x = some v) ∨ R'.Holds m' v) :
    R'.Keeps m' where
  globals := Nat.lt_of_lt_of_le h.globals hm.environments.grows.size
  bound e x v hv := by
    rcases hbound e x v hv with hv | hv
    · exact (h.bound e x v hv).mono hR hm
    · exact hv
  fields ref b x v hb hv := by
    rcases hfields ref b x v hb hv with ⟨b', hb', hv⟩ | hv
    · exact (h.fields ref b' x v hb' hv).mono hR hm
    · exact hv

theorem Holds.not_refersTo (h : R.Holds m v) : ¬v.RefersTo m.objects.size := by
  intro href
  cases v with
  | object ref c =>
    obtain rfl : ref = _ := href
    exact Nat.lt_irrefl _ h.1
  | _ => exact href

/-- Nothing refers to an instance that is yet to come. -/
theorem Keeps.lacks (h : R.Keeps m) : m.Lacks m.objects.size where
  object := Array.getElem?_eq_none (Nat.le_refl _)
  bound e x v hv := (h.bound e x v hv).not_refersTo
  fields r b x v hb hv := (h.fields r b x v hb hv).not_refersTo

end Register
end

/-- A machine with a register of what its methods are bound to. -/
structure Estate where
  register : Register
  machine : Machine
  keeps : register.Keeps machine

namespace Estate

structure Later (s t : Estate) : Prop where
  register : Register.Agrees s.machine.created s.register t.register
  machine : s.machine.Extends t.machine
  current : t.machine.current = s.machine.current

theorem Later.refl (s : Estate) : s.Later s :=
  ⟨fun _ _ => rfl, ⟨Nat.le_refl _, Nat.le_refl _, .refl _⟩, rfl⟩

theorem Later.trans {s t u : Estate} (h : s.Later t) (h' : t.Later u) : s.Later u where
  register id hid :=
    (h'.register id (Nat.lt_of_lt_of_le hid h.machine.created)).trans (h.register id hid)
  machine := h.machine.trans h'.machine
  current := h'.current.trans h.current

def Holds (s : Estate) (v : Value) : Prop := s.register.Holds s.machine v

theorem Holds.later {s t : Estate} {v : Value} (h : s.Holds v) (ht : s.Later t) : t.Holds v :=
  Register.Holds.mono h ht.register ht.machine

end Estate

/-- The run on the left relies on a register and an alarm. Both sides have the same values. -/
def estates : Parallel where
  State := Estate
  left s := s.machine
  right s := s.machine
  Later := Estate.Later
  later_refl := Estate.Later.refl
  later_trans := Estate.Later.trans
  Told := Register × Failure
  Confirms s told := Register.Agrees s.machine.created s.register told.1
  confirms_later h hw id hid :=
    (hw id (Nat.lt_of_lt_of_le hid h.machine.created)).trans (h.register id hid)
  Fails f g := f = g
  fails_refl _ := rfl
  Function _ f g := f = g
  Method _ f g := f = g
  function_later _ h := h
  method_later _ h := h
  id_eq h := congrArg Closure.id h
  name_eq h := congrArg Closure.name h
  arity_eq h := congrArg Closure.arity h
  methodArity_eq h := congrArg Closure.arity h

namespace Estate
open Eval
variable {s t : Estate} {α β : Type}

/-- Told the truth about the register, `x` ends as `y` does, and as `Q` says. -/
def Runs (s : Estate) (x : Register × Failure → Eval α) (y : Eval α) (Q : Estate → α → Prop) :
    Prop :=
  Parallel.Runs (P := estates) s x y fun t a b => a = b ∧ Q t a

namespace Runs
variable {x : Register × Failure → Eval α} {y : Eval α} {Q Q' : Estate → α → Prop}

theorem mono (h : s.Runs x y Q) (hQ : ∀ t a, s.Later t → Q t a → Q' t a) : s.Runs x y Q' :=
  Parallel.Runs.mono h fun t a _ ht hq => ⟨hq.1, hQ t a ht hq.2⟩

theorem pure {a : α} (h : Q s a) : s.Runs (fun _ => Pure.pure a) (Pure.pure a) Q :=
  Parallel.Runs.pure ⟨rfl, h⟩

theorem throw (f : Failure) : s.Runs (fun _ => (throw f : Eval α)) (MonadExcept.throw f) Q :=
  Parallel.Runs.throw f

theorem get {f : Register × Failure → Machine → Eval α} {g : Machine → Eval α}
    (h : s.Runs (fun w => f w s.machine) (g s.machine) Q) :
    s.Runs (fun w => MonadState.get >>= f w) (MonadState.get >>= g) Q := h

theorem bind {f : Register × Failure → α → Eval β} {g : α → Eval β} {R : Estate → β → Prop}
    (h : s.Runs x y Q) (hf : ∀ t a, s.Later t → Q t a → t.Runs (fun w => f w a) (g a) R) :
    s.Runs (fun w => x w >>= f w) (y >>= g) R := by
  refine Parallel.Runs.bind h fun t a b ht hq => ?_
  obtain ⟨rfl, hq⟩ := hq
  exact hf t a ht hq

/-- Where something is required that is the case, the left side goes on. -/
theorem require {p : Register × Failure → Prop} {f : Register × Failure → Eval α}
    (h : s.Runs f y Q) (hp : ∀ told, estates.Confirms s told → p told) :
    s.Runs (fun told => Register.require told.2 (p told) >>= fun _ => f told) y Q := by
  refine Parallel.Runs.congr h fun told htold => ?_
  show (Register.require told.2 (p told) >>= fun _ => f told) s.machine = f told s.machine
  rw [Register.require, if_pos (hp told htold)]
  rfl

/-- What the left side gives is known to the right side. -/
theorem returning {v : α} (h : s.Runs x y Q) (hv : ∀ t a, s.Later t → Q t a → a = v ∧ Q' t a) :
    s.Runs x (y >>= fun _ => Pure.pure v) Q' := by
  refine Parallel.Runs.congr (z := fun told => x told >>= Pure.pure) ?_ fun told _ => ?_
  · refine h.bind fun t a ht hq => ?_
    obtain ⟨rfl, hq⟩ := hv t a ht hq
    exact .pure hq
  · rw [bind_pure]

theorem peek {f : Register × Failure → Machine → Eval α}
    (h : s.Runs (fun w => f w s.machine) y Q) : s.Runs (fun w => MonadState.get >>= f w) y Q :=
  Parallel.Runs.congr h fun _ _ => rfl

theorem ofFault {r : Except Fault α} (h : ∀ a, r = .ok a → Q s a) :
    s.Runs (fun _ => Eval.ofFault r) (Eval.ofFault r) Q := by
  cases r with
  | ok a => exact .pure (h a rfl)
  | error f => exact .throw _

theorem ofOperator (line : Nat) {r : Except Cause α} (h : ∀ a, r = .ok a → Q s a) :
    s.Runs (fun _ => Eval.ofOperator line r) (Eval.ofOperator line r) Q := by
  cases r with
  | ok a => exact .pure (h a rfl)
  | error cause => exact .throw _

end Runs
end Estate
end Lox

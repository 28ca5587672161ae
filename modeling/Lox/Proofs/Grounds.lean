import Lox.Proofs.Chains
import Lox.Proofs.Construction
import Lox.Proofs.Parallel

/-! Grounded machines. Each environment but the globals lies in one created before it, each class
inherits from one created before it, and all that a value refers to is on the machine. So every
chain comes to an end, that of an environment at the globals. -/

namespace Lox
namespace Environments

/-- Every environment but the globals lies in one created before it. -/
structure Grounded (s : Environments) : Prop where
  exists_ : Machine.globals < s.frames.size
  globals : s.link? Machine.globals = none
  enclosed : ∀ e < s.frames.size, e ≠ Machine.globals → ∃ p < e, s.link? e = some p

namespace Grounded
variable {s : Environments} (h : s.Grounded)
include h

theorem linked : s.Linked := by
  intro e p hl
  have he : e < s.frames.size := by
    rcases Nat.lt_or_ge e s.frames.size with he | he
    · exact he
    · cases (link?_of_size_le he).symm.trans hl
  have hne : e ≠ Machine.globals := by
    rintro rfl
    cases h.globals.symm.trans hl
  obtain ⟨q, hq, hl'⟩ := h.enclosed e he hne
  cases hl.symm.trans hl'
  exact hq

/-- Link by link, the globals are reached. -/
theorem exists_outward (e : Nat) (he : e < s.frames.size) : ∃ d, s.Outward e d Machine.globals := by
  induction e using Nat.strongRecOn with
  | ind e ih =>
    by_cases hne : e = Machine.globals
    · exact ⟨0, hne ▸ .here e⟩
    · obtain ⟨p, hp, hl⟩ := h.enclosed e he hne
      obtain ⟨d, ho⟩ := ih p hp (Nat.lt_trans hp he)
      exact ⟨d + 1, .link hl ho⟩

/-- It takes no more links than there are older environments. -/
theorem reaches (e : Nat) (he : e < s.frames.size) : ∃ d ≤ e, s.Outward e d Machine.globals := by
  obtain ⟨d, ho⟩ := h.exists_outward e he
  exact ⟨d, Nat.le_trans (Nat.le_add_left d _) (h.linked.add_le ho), ho⟩

theorem create {p : Nat} (hp : p < s.frames.size) (b : Bindings Value) :
    (s.create (some p) b).2.Grounded where
  exists_ := by
    rw [size_create]
    exact Nat.lt_succ_of_lt h.exists_
  globals := by
    rw [link?_create, if_neg (Nat.ne_of_lt h.exists_)]
    exact h.globals
  enclosed e he hne := by
    rw [size_create] at he
    rw [link?_create]
    split
    · next heq => exact ⟨p, heq ▸ hp, rfl⟩
    · next hlt => exact h.enclosed e (by omega) hne

theorem define (e : Nat) (x : String) (v : Value) : (s.define e x v).Grounded where
  exists_ := (size_define s e x v).symm ▸ h.exists_
  globals := (link?_define s e _ x v).trans h.globals
  enclosed e' he' hne := by
    rw [size_define] at he'
    rw [link?_define]
    exact h.enclosed e' he' hne

end Grounded
end Environments

/-- A machine that has gone on: nothing is lost, and no environment has come to lie elsewhere. -/
structure Machine.Precedes (m m' : Machine) : Prop where
  created : m.created ≤ m'.created
  objects : m.objects.size ≤ m'.objects.size
  size : m.environments.frames.size ≤ m'.environments.frames.size
  link : ∀ e < m.environments.frames.size, m'.environments.link? e = m.environments.link? e

structure Closure.Grounded (m : Machine) (f : Closure) : Prop where
  created : f.id < m.created
  exists_ : f.environment < m.environments.frames.size

namespace Class

/-- A class inherits from one that was created before it. -/
def Grounded (m : Machine) : Class → Prop
  | root id _ methods => id < m.created ∧ ∀ x f, methods.find? x = some f → f.Grounded m
  | derived id _ methods superclass =>
    (id < m.created ∧ ∀ x f, methods.find? x = some f → f.Grounded m) ∧
      superclass.id < id ∧ superclass.Grounded m

/-- The chain of a class leads to older classes only, and a method is that of the nearest class on
it that has one of the name. -/
structure Descends (c : Class) : Prop where
  older : c.chain.Pairwise fun d k => k.id < d.id
  length_le : c.chain.length ≤ c.id + 1
  findMethod : ∀ x f, c.findMethod x = some f ↔ ∃ nearer d further,
    c.chain = nearer ++ d :: further ∧ d.methods.find? x = some f ∧
      ∀ k ∈ nearer, k.methods.find? x = none

end Class

namespace Value

/-- What the value refers to is on the machine. -/
def Grounded (m : Machine) : Value → Prop
  | .function f => f.Grounded m
  | .class_ c => c.Grounded m
  | .object ref c => ref < m.objects.size ∧ c.Grounded m
  | _ => True

def Descends : Value → Prop
  | .class_ c | .object _ c => c.Descends
  | _ => True

end Value

namespace Machine

structure Grounded (m : Machine) : Prop where
  environments : m.environments.Grounded
  current : m.current < m.environments.frames.size
  bound : ∀ e x v, m.environments.find? e x = some v → v.Grounded m
  fields : ∀ (ref : Nat) b x v, m.objects[ref]? = some b → b.find? x = some v → v.Grounded m

/-- A grounded machine on which all that follows chains comes to an end: from each environment the
globals are reached; a search for a name, and a count of links, take the links as they are; and the
chain of each class that a value can have grows older. -/
structure Orderly (m : Machine) : Prop extends m.Grounded where
  reaches : ∀ e < m.environments.frames.size, ∃ d ≤ e, m.environments.Outward e d globals
  searches : ∀ x e, m.environments.Searches x e (m.environments.owner? x e)
  counts : ∀ e d a, m.environments.ancestor? e d = some a ↔ m.environments.Outward e d a
  descends : ∀ v : Value, v.Grounded m → v.Descends

end Machine

variable {m m' m'' : Machine} {c : Class} {f : Closure} {v : Value}

theorem Machine.Precedes.refl (m : Machine) : m.Precedes m :=
  ⟨Nat.le_refl _, Nat.le_refl _, Nat.le_refl _, fun _ _ => rfl⟩

theorem Machine.Precedes.trans (h : m.Precedes m') (h' : m'.Precedes m'') : m.Precedes m'' where
  created := Nat.le_trans h.created h'.created
  objects := Nat.le_trans h.objects h'.objects
  size := Nat.le_trans h.size h'.size
  link e he := (h'.link e (Nat.lt_of_lt_of_le he h.size)).trans (h.link e he)

theorem Closure.Grounded.mono (h : f.Grounded m) (hm : m.Precedes m') : f.Grounded m' :=
  ⟨Nat.lt_of_lt_of_le h.created hm.created, Nat.lt_of_lt_of_le h.exists_ hm.size⟩

namespace Class

theorem Grounded.mono (h : c.Grounded m) (hm : m.Precedes m') : c.Grounded m' := by
  induction c with
  | root id name methods =>
    exact ⟨Nat.lt_of_lt_of_le h.1 hm.created, fun x f hx => (h.2 x f hx).mono hm⟩
  | derived id name methods superclass ih =>
    obtain ⟨⟨hid, hmethods⟩, hlt, hsuper⟩ := h
    exact ⟨⟨Nat.lt_of_lt_of_le hid hm.created, fun x f hx => (hmethods x f hx).mono hm⟩, hlt,
      ih hsuper⟩

theorem Grounded.id_lt (h : c.Grounded m) : c.id < m.created := by
  cases c with
  | root id name methods => exact h.1
  | derived id name methods superclass => exact h.1.1

theorem Grounded.findMethod (h : c.Grounded m) {x : String} (hf : c.findMethod x = some f) :
    f.Grounded m := by
  induction c with
  | root id name methods => exact h.2 x f hf
  | derived id name methods superclass ih =>
    unfold Class.findMethod at hf
    split at hf
    · next hx =>
      cases hf
      exact h.1.2 x _ hx
    · exact ih h.2.2 hf

theorem Grounded.id_le (h : c.Grounded m) : ∀ k ∈ c.chain, k.id ≤ c.id := by
  induction c with
  | root id name methods =>
    intro k hk
    exact Nat.le_of_eq (congrArg Class.id (List.mem_singleton.1 hk))
  | derived id name methods superclass ih =>
    rintro k (_ | ⟨_, hk⟩)
    · exact Nat.le_refl _
    · exact Nat.le_of_lt (Nat.lt_of_le_of_lt (ih h.2.2 k hk) h.2.1)

theorem Grounded.older (h : c.Grounded m) : c.chain.Pairwise fun d k => k.id < d.id := by
  induction c with
  | root id name methods => exact List.pairwise_singleton _ _
  | derived id name methods superclass ih =>
    exact .cons (fun k hk => Nat.lt_of_le_of_lt (h.2.2.id_le k hk) h.2.1) (ih h.2.2)

theorem Grounded.length_le (h : c.Grounded m) : c.chain.length ≤ c.id + 1 := by
  induction c with
  | root id name methods => exact Nat.succ_le_succ (Nat.zero_le _)
  | derived id name methods superclass ih =>
    have hchain : (Class.derived id name methods superclass).chain.length =
        superclass.chain.length + 1 := rfl
    have hle := ih h.2.2
    have hlt : superclass.id < id := h.2.1
    show _ ≤ id + 1
    omega

theorem Grounded.descends (h : c.Grounded m) : c.Descends where
  older := h.older
  length_le := h.length_le
  findMethod x f := by
    rw [← Class.nearest_eq, Class.nearest, List.findSome?_eq_some_iff]

end Class

theorem Value.Grounded.mono (h : v.Grounded m) (hm : m.Precedes m') : v.Grounded m' := by
  cases v with
  | function f => exact Closure.Grounded.mono h hm
  | class_ c => exact Class.Grounded.mono h hm
  | object ref c => exact ⟨Nat.lt_of_lt_of_le h.1 hm.objects, h.2.mono hm⟩
  | _ => trivial

namespace Machine

theorem Grounded.orderly (h : m.Grounded) : m.Orderly where
  toGrounded := h
  reaches := h.environments.reaches
  searches := h.environments.linked.searches
  counts _ _ _ := h.environments.linked.ancestor?_eq_some_iff
  descends v hv := by
    cases v with
    | class_ c => exact Class.Grounded.descends hv
    | object ref c => exact hv.2.descends
    | _ => trivial

/-- What is bound on the machine that has gone on was bound before, or is grounded there. -/
theorem Grounded.next (h : m.Grounded) (hm : m.Precedes m')
    (henvironments : m'.environments.Grounded) (hcurrent : m'.current = m.current)
    (hbound : ∀ e x v, m'.environments.find? e x = some v →
      m.environments.find? e x = some v ∨ v.Grounded m')
    (hfields : ∀ (ref : Nat) b x v, m'.objects[ref]? = some b → b.find? x = some v →
      (∃ b', m.objects[ref]? = some b' ∧ b'.find? x = some v) ∨ v.Grounded m') :
    m'.Grounded where
  environments := henvironments
  current := hcurrent ▸ Nat.lt_of_lt_of_le h.current hm.size
  bound e x v hv := by
    rcases hbound e x v hv with hv | hv
    · exact (h.bound e x v hv).mono hm
    · exact hv
  fields ref b x v hb hv := by
    rcases hfields ref b x v hb hv with ⟨b', hb', hv⟩ | hv
    · exact (h.fields ref b' x v hb' hv).mono hm
    · exact hv

theorem grounded_initial (clock : Float) : (initial clock).Grounded where
  environments := by
    refine ⟨globals_lt_initial clock, rfl, fun e he hne => ?_⟩
    have he : e < 1 := he
    exact absurd (Nat.lt_one_iff.1 he) hne
  current := globals_lt_initial clock
  bound e x v hv := by
    obtain ⟨rfl, rfl⟩ := eq_clock_of_initial hv
    trivial
  fields ref b x v hb _ := by
    cases (objects_initial clock ref).symm.trans hb

end Machine

/-- A grounded machine. -/
structure Ground where
  machine : Machine
  grounded : machine.Grounded

structure Ground.Later (s t : Ground) : Prop where
  machine : s.machine.Precedes t.machine
  current : t.machine.current = s.machine.current

/-- The run on the left relies on an alarm. Both sides have the same values. -/
def grounds : Parallel where
  State := Ground
  left s := s.machine
  right s := s.machine
  Later := Ground.Later
  later_refl _ := ⟨.refl _, rfl⟩
  later_trans h h' := ⟨h.machine.trans h'.machine, h'.current.trans h.current⟩
  Told := Failure
  Confirms _ _ := True
  confirms_later _ h := h
  Fails f g := f = g
  fails_refl _ := rfl
  Function _ f g := f = g
  Method _ f g := f = g
  function_later _ h := h
  method_later _ h := h
  id_eq h := congrArg Closure.id h
  name_eq h := congrArg Closure.name h
  arity_eq h := congrArg Closure.arity h
  methodArity_eq h := congrArg Closure.arity h

namespace Ground
open Eval
variable {s t u : Ground} {α β : Type} {Q : Ground → α → Prop}

theorem Later.trans (h : s.Later t) (h' : t.Later u) : s.Later u := grounds.later_trans h h'

def Has (s : Ground) (v : Value) : Prop := v.Grounded s.machine

theorem Has.later {v : Value} (h : s.Has v) (ht : s.Later t) : t.Has v :=
  Value.Grounded.mono h ht.machine

/-- Whatever the alarm, `x` ends as `y` does, and as `Q` says. -/
def Runs (s : Ground) (x : Failure → Eval α) (y : Eval α) (Q : Ground → α → Prop) : Prop :=
  Parallel.Runs (P := grounds) s x y fun t a b => a = b ∧ Q t a

namespace Runs
variable {x : Failure → Eval α} {y : Eval α}

theorem pure {a : α} (h : Q s a) : s.Runs (fun _ => Pure.pure a) (Pure.pure a) Q :=
  Parallel.Runs.pure ⟨rfl, h⟩

theorem throw (f : Failure) : s.Runs (fun _ => (throw f : Eval α)) (MonadExcept.throw f) Q :=
  Parallel.Runs.throw f

theorem get {f : Failure → Machine → Eval α} {g : Machine → Eval α}
    (h : s.Runs (fun alarm => f alarm s.machine) (g s.machine) Q) :
    s.Runs (fun alarm => MonadState.get >>= f alarm) (MonadState.get >>= g) Q := h

theorem bind {f : Failure → α → Eval β} {g : α → Eval β} {R : Ground → β → Prop}
    (h : s.Runs x y Q) (hf : ∀ t a, s.Later t → Q t a → t.Runs (fun alarm => f alarm a) (g a) R) :
    s.Runs (fun alarm => x alarm >>= f alarm) (y >>= g) R := by
  refine Parallel.Runs.bind h fun t a b ht hq => ?_
  obtain ⟨rfl, hq⟩ := hq
  exact hf t a ht hq

theorem ofFault {r : Except Fault α} (h : ∀ a, r = .ok a → Q s a) :
    s.Runs (fun _ => Eval.ofFault r) (Eval.ofFault r) Q := by
  cases r with
  | ok a => exact .pure (h a rfl)
  | error f => exact .throw _

theorem ofOperator (line : Nat) {r : Except Cause α} (h : ∀ a, r = .ok a → Q s a) :
    s.Runs (fun _ => Eval.ofOperator line r) (Eval.ofOperator line r) Q := by
  cases r with
  | ok a => exact .pure (h a rfl)
  | error cause => exact .throw _

end Runs

section steps

/-- A step of the machine, by what it binds and what it puts into fields. -/
theorem step_runs {f : Machine → α × Machine} (hm : s.machine.Precedes (f s.machine).2)
    (henvironments : (f s.machine).2.environments.Grounded)
    (hcurrent : (f s.machine).2.current = s.machine.current)
    (hbound : ∀ e x v, (f s.machine).2.environments.find? e x = some v →
      s.machine.environments.find? e x = some v ∨ v.Grounded (f s.machine).2)
    (hfields : ∀ (ref : Nat) b x v, (f s.machine).2.objects[ref]? = some b → b.find? x = some v →
      (∃ b', s.machine.objects[ref]? = some b' ∧ b'.find? x = some v) ∨
        v.Grounded (f s.machine).2)
    (hQ : ∀ t : Ground, t.machine = (f s.machine).2 → Q t (f s.machine).1) :
    s.Runs (fun _ => modifyGet f) (modifyGet f) Q := by
  let t : Ground := ⟨(f s.machine).2, s.grounded.next hm henvironments hcurrent hbound hfields⟩
  exact ⟨t, ⟨hm, hcurrent⟩, .inl ⟨_, _, ⟨rfl, hQ t rfl⟩, rfl, fun _ _ => rfl⟩⟩

/-- A step that binds nothing and puts nothing into fields. -/
theorem idle_runs {f : Machine → α × Machine}
    (hcreated : s.machine.created ≤ (f s.machine).2.created)
    (henvironments : (f s.machine).2.environments = s.machine.environments)
    (hobjects : (f s.machine).2.objects = s.machine.objects)
    (hcurrent : (f s.machine).2.current = s.machine.current)
    (hQ : ∀ t : Ground, t.machine = (f s.machine).2 → Q t (f s.machine).1) :
    s.Runs (fun _ => modifyGet f) (modifyGet f) Q := by
  have hm : s.machine.Precedes (f s.machine).2 :=
    ⟨hcreated, hobjects ▸ Nat.le_refl _, henvironments ▸ Nat.le_refl _,
      fun _ _ => henvironments ▸ rfl⟩
  exact step_runs hm (henvironments ▸ s.grounded.environments) hcurrent
    (fun e x v hv => .inl (henvironments ▸ hv)) (fun ref b x v hb hv => .inl ⟨b, hobjects ▸ hb, hv⟩)
    hQ

theorem emit_runs (s : Ground) (e : Event) : s.Runs (fun _ => emit e) (emit e) fun _ _ => True :=
  idle_runs (Nat.le_refl _) rfl rfl rfl fun _ _ => trivial

theorem readClock_runs (s : Ground) : s.Runs (fun _ => readClock) readClock Has :=
  idle_runs (Nat.le_refl _) rfl rfl rfl fun _ _ => trivial

/-- Whoever is created next is younger than all that exist. -/
theorem nextId_runs (s : Ground) :
    s.Runs (fun _ => nextId) nextId fun t id => s.machine.created = id ∧ id < t.machine.created :=
  idle_runs (Nat.le_succ _) rfl rfl rfl fun _ ht => ⟨rfl, ht ▸ Nat.lt_succ_self _⟩

theorem newInstance_runs (s : Ground) {c : Class} (hc : c.Grounded s.machine) :
    s.Runs (fun _ => newInstance c) (newInstance c) Has := by
  have hm : s.machine.Precedes { s.machine with objects := s.machine.objects.push [] } :=
    ⟨Nat.le_refl _, by simp, Nat.le_refl _, fun _ _ => rfl⟩
  refine step_runs hm s.grounded.environments rfl (fun e x v hv => .inl hv)
    (fun ref b x v hb hv => .inl ⟨b, getElem?_of_push_nil hb hv, hv⟩) fun t ht => ?_
  refine ⟨?_, ht ▸ hc.mono hm⟩
  rw [ht]
  simp

theorem setField_runs (s : Ground) (ref : Nat) (name : String) {v : Value} (hv : s.Has v) :
    s.Runs (fun _ => setField ref name v) (setField ref name v) fun _ _ => True := by
  have hm : s.machine.Precedes
      { s.machine with objects := s.machine.objects.modify ref (·.put name v) } :=
    ⟨Nat.le_refl _, by simp, Nat.le_refl _, fun _ _ => rfl⟩
  refine step_runs hm s.grounded.environments rfl (fun e x v hv => .inl hv)
    (fun r b x w hb hw => ?_) fun _ _ => trivial
  rcases getElem?_of_modify_put hb hw with rfl | hw
  · exact .inr (hv.mono hm)
  · exact .inl hw

theorem getField?_runs (s : Ground) (ref : Nat) (name : String) :
    s.Runs (fun _ => getField? ref name) (getField? ref name) fun t v? => ∀ v ∈ v?, t.Has v := by
  refine .get (.pure fun v hv => ?_)
  obtain ⟨b, hb, hx⟩ := Option.bind_eq_some_iff.1 hv
  exact s.grounded.fields ref b name v hb hx

theorem newEnvironment_runs {p : Nat} (hp : p < s.machine.environments.frames.size)
    {b : Bindings Value} (hb : ∀ x v, b.find? x = some v → s.Has v) :
    s.Runs (fun _ => newEnvironment p b) (newEnvironment p b) fun t e =>
      e < t.machine.environments.frames.size := by
  have hm : s.machine.Precedes
      { s.machine with environments := (s.machine.environments.create (some p) b).2 } := by
    refine ⟨Nat.le_refl _, Nat.le_refl _, ?_, fun e he => ?_⟩
    · rw [Environments.size_create]
      exact Nat.le_succ _
    · rw [Environments.link?_create, if_neg (Nat.ne_of_lt he)]
  refine step_runs hm (s.grounded.environments.create hp b) rfl (fun e x v hv => ?_)
    (fun ref b x v hb hv => .inl ⟨b, hb, hv⟩) fun t ht => ?_
  · rcases Environments.of_find?_create hv with hv | hv
    · exact .inr ((hb x v hv).mono hm)
    · exact .inl hv
  · rw [ht]
    show s.machine.environments.frames.size <
      (s.machine.environments.create (some p) b).2.frames.size
    rw [Environments.size_create]
    exact Nat.lt_succ_self _

theorem defineIn_runs (e : Nat) (name : String) {v : Value} (hv : s.Has v) :
    s.Runs (fun _ => defineIn e name v) (defineIn e name v) fun _ _ => True := by
  have hm : s.machine.Precedes
      { s.machine with environments := s.machine.environments.define e name v } :=
    ⟨Nat.le_refl _, Nat.le_refl _, Nat.le_of_eq (Environments.size_define _ e name v).symm,
      fun e' _ => Environments.link?_define _ e e' name v⟩
  refine step_runs hm (s.grounded.environments.define e name v) rfl (fun e' x w hw => ?_)
    (fun ref b x v hb hv => .inl ⟨b, hb, hv⟩) fun _ _ => trivial
  rcases Environments.of_find?_define hw with ⟨rfl, rfl⟩ | hw
  · exact .inr (hv.mono hm)
  · exact .inl hw

theorem define_runs (name : String) {v : Value} (hv : s.Has v) :
    s.Runs (fun _ => define name v) (define name v) fun _ _ => True :=
  defineIn_runs (s := s) s.machine.current name hv

theorem assignFrom_runs (e : Nat) (name : Token) {v : Value} (hv : s.Has v) :
    s.Runs (fun _ => assignFrom e name v) (assignFrom e name v) fun _ _ => True := by
  refine .get ?_
  cases s.machine.environments.owner? name.lexeme e with
  | none => exact .throw _
  | some owner => exact defineIn_runs owner name.lexeme hv

theorem assign_runs (name : Token) (target : Hops) {v : Value} (hv : s.Has v) :
    s.Runs (fun _ => assign name target v) (assign name target v) fun _ _ => True := by
  cases target with
  | none => exact assignFrom_runs Machine.globals name hv
  | some d =>
    refine .get (Runs.bind (Q := fun t _ => t.Has v) (.ofFault fun _ _ => hv) ?_)
    exact fun t owner _ hv => defineIn_runs owner name.lexeme hv

theorem has_of_getAt {e d : Nat} {x : String} {v : Value}
    (h : s.machine.environments.getAt e d x = .ok v) : s.Has v := by
  obtain ⟨a, -, hf⟩ := Environments.getAt_eq_ok.1 h
  exact s.grounded.bound a x v hf

theorem lookUp_runs (s : Ground) (name : Token) (target : Hops) :
    s.Runs (fun _ => lookUp name target) (lookUp name target) Has := by
  refine .get ?_
  cases target with
  | some d => exact .ofFault fun v hv => has_of_getAt hv
  | none =>
    dsimp only
    cases hv : s.machine.environments.get? Machine.globals name.lexeme with
    | none => exact .throw _
    | some v =>
      obtain ⟨owner, -, hf⟩ := Option.bind_eq_some_iff.1 hv
      exact .pure (s.grounded.bound owner _ v hf)

theorem has_singleton {name : String} {v : Value} (hv : s.Has v) (x : String) (w : Value)
    (hw : Bindings.find? [(name, v)] x = some w) : s.Has w := by
  obtain ⟨rfl, rfl⟩ := Bindings.eq_of_find?_singleton hw
  exact hv

theorem bindMethod_runs {f : Closure} (hf : f.Grounded s.machine) {v : Value} (hv : s.Has v) :
    s.Runs (fun _ => bindMethod f v) (bindMethod f v) fun t g => g.Grounded t.machine := by
  refine (newEnvironment_runs hf.exists_ (has_singleton hv)).bind fun t e _ he => ?_
  refine (nextId_runs t).bind fun u id hu hid => .pure ⟨hid.2, ?_⟩
  exact Nat.lt_of_lt_of_le he hu.machine.size

theorem newFunction_runs (s : Ground) (declaration : BoundFunction) (isInitializer : Bool) :
    s.Runs (fun _ => newFunction declaration isInitializer) (newFunction declaration isInitializer)
      fun t f => f.Grounded t.machine :=
  (nextId_runs s).bind fun t _ _ hid => .get (.pure ⟨hid.2, t.grounded.current⟩)

theorem newMethods_runs (fs : List BoundFunction) {ms : Bindings Closure}
    (hms : ∀ x f, ms.find? x = some f → f.Grounded s.machine) :
    s.Runs (fun _ => newMethods fs ms) (newMethods fs ms) fun t ms =>
      ∀ x f, ms.find? x = some f → f.Grounded t.machine := by
  induction fs generalizing s ms with
  | nil => exact .pure hms
  | cons f fs ih =>
    refine (newFunction_runs s f f.isInitializer).bind fun t g ht hg => ih fun x g' hx => ?_
    rw [Bindings.find?_put] at hx
    split at hx
    · cases hx
      exact hg
    · exact (hms x g' hx).mono ht.machine

theorem precedes_moved (m : Machine) (current callDepth : Nat) :
    m.Precedes { m with current, callDepth } :=
  ⟨Nat.le_refl _, Nat.le_refl _, Nat.le_refl _, fun _ _ => rfl⟩

def moved (s : Ground) (current callDepth : Nat)
    (h : current < s.machine.environments.frames.size) : Ground where
  machine := { s.machine with current, callDepth }
  grounded :=
    ⟨s.grounded.environments, h,
      fun e x v hv => (s.grounded.bound e x v hv).mono (precedes_moved _ _ _),
      fun ref b x v hb hv => (s.grounded.fields ref b x v hb hv).mono (precedes_moved _ _ _)⟩

theorem inEnvironment_runs {e : Nat} (he : e < s.machine.environments.frames.size)
    {x : Failure → Eval α} {y : Eval α}
    (hQ : ∀ (t u : Ground) a, t.machine.Precedes u.machine → Q t a → Q u a)
    (h : (s.moved e s.machine.callDepth he).Runs x y Q) :
    s.Runs (fun alarm => inEnvironment e (x alarm)) (inEnvironment e y) Q := by
  simp only [inEnvironment_eq]
  refine Parallel.Runs.within h rfl rfl (fun _ _ h => h) fun t ht => ?_
  have hcurrent := Nat.lt_of_lt_of_le s.grounded.current ht.machine.size
  refine ⟨t.moved s.machine.current t.machine.callDepth hcurrent, ⟨?_, rfl⟩, rfl, rfl, ?_,
    fun _ h => h⟩
  · exact ⟨ht.machine.created, ht.machine.objects, ht.machine.size, ht.machine.link⟩
  · exact fun a b hq => ⟨hq.1, hQ t _ a (precedes_moved _ _ _) hq.2⟩

theorem inCall_runs (s : Ground) (line : Nat) {x : Failure → Eval Value} {y : Eval Value}
    (h : ∀ t, s.Later t → t.Runs x y Has) :
    s.Runs (fun alarm => inCall line (x alarm)) (inCall line y) Has := by
  have hlater : s.Later (s.moved s.machine.current (s.machine.callDepth + 1) s.grounded.current) :=
    ⟨precedes_moved _ _ _, rfl⟩
  simp only [inCall_eq]
  refine Parallel.Runs.within (h _ hlater) rfl rfl (fun f g h => congrArg (blamed line) h)
    fun t ht => ?_
  refine ⟨t.moved t.machine.current (t.machine.callDepth - 1) t.grounded.current,
    hlater.trans ⟨⟨ht.machine.created, ht.machine.objects, ht.machine.size, ht.machine.link⟩,
      ht.current⟩, rfl, rfl, fun a b hq => ⟨hq.1, ?_⟩, fun _ h => h⟩
  exact Value.Grounded.mono hq.2 (precedes_moved _ _ _)

end steps
end Ground
end Lox

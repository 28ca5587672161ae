import Lox.Proofs.Homes

/-! Households. On a machine whose functions have homes, the environments around a function bind
`this` and `super` to what its home says, as far out as they are resolved, and nothing rebinds
them. -/

namespace Lox
namespace Environments
variable {s t u : Environments} {e p d : Nat} {x : String} {v : Value}

/-- Environments that grow without rebinding `this` or `super`. -/
structure Retains (s t : Environments) : Prop where
  grows : s.Grows t
  this : ∀ e v, s.find? e "this" = some v → t.find? e "this" = some v
  super : ∀ e v, s.find? e "super" = some v → t.find? e "super" = some v

theorem Retains.refl (s : Environments) : s.Retains s := ⟨.refl s, fun _ _ h => h, fun _ _ h => h⟩

theorem Retains.trans (h : s.Retains t) (h' : t.Retains u) : s.Retains u where
  grows := h.grows.trans h'.grows
  this e v hv := h'.this e v (h.this e v hv)
  super e v hv := h'.super e v (h.super e v hv)

theorem Grows.getAt (h : s.Grows t) (hx : ∀ e v, s.find? e x = some v → t.find? e x = some v)
    (hv : s.getAt e d x = .ok v) : t.getAt e d x = .ok v := by
  obtain ⟨a, ha, hf⟩ := getAt_eq_ok.1 hv
  exact getAt_eq_ok.2 ⟨a, h.ancestor ha, hx a v hf⟩

theorem getAt_of_link (h : s.link? e = some p) (hp : p < e) (hv : s.getAt p d x = .ok v) :
    s.getAt e (d + 1) x = .ok v := by
  obtain ⟨a, ha, hf⟩ := getAt_eq_ok.1 hv
  exact getAt_eq_ok.2 ⟨a, (ancestor?_of_link h hp d).trans ha, hf⟩

theorem find?_create_of_some (h : s.find? e x = some v) (enclosing : Option Nat)
    (b : Bindings Value) : (s.create enclosing b).2.find? e x = some v := by
  have hne : e ≠ s.frames.size := by
    intro he
    rw [find?_of_size_le (Nat.le_of_eq he.symm)] at h
    cases h
  rw [find?_create, if_neg hne, h]

theorem retains_create (s : Environments) (enclosing : Option Nat) (b : Bindings Value) :
    s.Retains (s.create enclosing b).2 where
  grows := grows_create s enclosing b
  this _ _ h := find?_create_of_some h enclosing b
  super _ _ h := find?_create_of_some h enclosing b

theorem find?_define_of_ne {name : String} (hne : name ≠ x) (h : s.find? e x = some v) (e' : Nat)
    (w : Value) : (s.define e' name w).find? e x = some v := by
  by_cases he : e' < s.frames.size
  · rw [find?_define he, if_neg fun hc => hne hc.2, h]
  · unfold find? at h ⊢
    rw [bindings_define, if_neg fun hc => he hc.2, h]

theorem retains_define {name : Token} (h : name.Plain) (s : Environments) (e : Nat) (w : Value) :
    s.Retains (s.define e name.lexeme w) where
  grows := grows_define s e name.lexeme w
  this _ _ hv := find?_define_of_ne h.ne_this hv e w
  super _ _ hv := find?_define_of_ne h.ne_super hv e w

/-- From the environment, `this` and `super` are bound where the seat says, as the home says. -/
structure Houses (s : Environments) (e : Nat) (seat : Option Seat) (home : Home) : Prop where
  exists_ : e < s.frames.size
  seated : ∀ k ∈ seat, ∃ superclass receiver, home = .method superclass receiver ∧
    s.getAt e k.distance "this" = .ok receiver ∧
      (k.hasSuper → ∃ c, superclass = some c ∧ s.getAt e (k.distance + 1) "super" = .ok (.class_ c))

variable {seat : Option Seat} {home : Home}

theorem Houses.mono (h : s.Houses e seat home) (hr : s.Retains t) : t.Houses e seat home where
  exists_ := Nat.lt_of_lt_of_le h.exists_ hr.grows.size
  seated k hk := by
    obtain ⟨superclass, receiver, hhome, hthis, hsuper⟩ := h.seated k hk
    refine ⟨superclass, receiver, hhome, hr.grows.getAt hr.this hthis, fun hk => ?_⟩
    obtain ⟨c, hc, hsuper⟩ := hsuper hk
    exact ⟨c, hc, hr.grows.getAt hr.super hsuper⟩

theorem Houses.inner (h : s.Houses p seat home) (hl : s.link? e = some p) (hp : p < e)
    (he : e < s.frames.size) : s.Houses e (seat.map Seat.inner) home where
  exists_ := he
  seated k hk := by
    obtain ⟨k, hseat, rfl⟩ := Option.map_eq_some_iff.1 hk
    obtain ⟨superclass, receiver, hhome, hthis, hsuper⟩ := h.seated k hseat
    refine ⟨superclass, receiver, hhome, getAt_of_link hl hp hthis, fun hk => ?_⟩
    obtain ⟨c, hc, hsuper⟩ := hsuper hk
    exact ⟨c, hc, getAt_of_link hl hp hsuper⟩

end Environments

namespace Ledger

/-- The ledgers have the same homes for all functions created so far. -/
def Agrees (created : Nat) (L L' : Ledger) : Prop := ∀ id < created, L' id = L id

/-- The function can be entered at its home. -/
structure Lodges (L : Ledger) (created : Nat) (envs : Environments) (f : Closure) : Prop where
  created : f.id < created
  seated : ∃ seat, Stmt.FunctionSeated seat f.declaration ∧
    envs.Houses f.environment seat (L f.id)

/-- The method of a class can be entered once it is bound. -/
structure Offers (L : Ledger) (created : Nat) (envs : Environments) (f : Closure) : Prop where
  created : f.id < created
  exists_ : f.environment < envs.frames.size
  class_ : ∃ superclass, L f.id = .class_ superclass ∧
    Stmt.FunctionSeated (some ⟨0, superclass.isSome⟩) f.declaration ∧
      ∀ c ∈ superclass, envs.find? f.environment "super" = some (.class_ c)

/-- The same value, with homes for its functions. -/
def Same (L : Ledger) (created : Nat) (envs : Environments) : Value → Value → Prop :=
  Value.Rel (fun f g => f = g ∧ L.Lodges created envs f) fun f g => f = g ∧ L.Offers created envs f

/-- All functions on a machine have homes. -/
structure Keeps (L : Ledger) (m : Machine) : Prop where
  globals : 0 < m.environments.frames.size
  bound : ∀ (e : Nat) (x : String) (v : Value), m.environments.find? e x = some v →
    L.Same m.created m.environments v v
  fields : ∀ (ref : Nat) (b : Bindings Value) (x : String) (v : Value),
    m.objects[ref]? = some b → b.find? x = some v → L.Same m.created m.environments v v

section
variable {L L' : Ledger} {created created' : Nat} {envs envs' : Environments} {f : Closure}

theorem Lodges.mono (h : L.Lodges created envs f) (hL : Agrees created L L')
    (hc : created ≤ created') (hr : envs.Retains envs') : L'.Lodges created' envs' f := by
  obtain ⟨seat, hf, hhouse⟩ := h.seated
  exact ⟨Nat.lt_of_lt_of_le h.created hc, seat, hf, hL f.id h.created ▸ hhouse.mono hr⟩

theorem Offers.mono (h : L.Offers created envs f) (hL : Agrees created L L')
    (hc : created ≤ created') (hr : envs.Retains envs') : L'.Offers created' envs' f := by
  obtain ⟨superclass, hhome, hf, hsuper⟩ := h.class_
  exact ⟨Nat.lt_of_lt_of_le h.created hc, Nat.lt_of_lt_of_le h.exists_ hr.grows.size, superclass,
    hL f.id h.created ▸ hhome, hf, fun c hc => hr.super _ _ (hsuper c hc)⟩

theorem Same.mono {v w : Value} (h : L.Same created envs v w) (hL : Agrees created L L')
    (hc : created ≤ created') (hr : envs.Retains envs') : L'.Same created' envs' v w :=
  Value.Rel.mono h (fun _ _ h => ⟨h.1, h.2.mono hL hc hr⟩) fun _ _ h => ⟨h.1, h.2.mono hL hc hr⟩

end
end Ledger

section
variable {ρ ε : Type} {P Q : Closure ρ ε → Closure ρ ε → Prop}

theorem Bindings.Rel.eq {α : Type} {R : α → α → Prop} {b c : Bindings α}
    (hR : ∀ v w, R v w → v = w) (h : Bindings.Rel R b c) : b = c := by
  induction h with
  | nil => rfl
  | cons hp _ ih => rw [ih, Prod.ext hp.1 (hR _ _ hp.2)]

theorem Class.Rel.eq {c d : Class ρ ε} (hP : ∀ f g, P f g → f = g) (h : c.Rel P d) : c = d := by
  induction c generalizing d with
  | root id name methods =>
    cases d with
    | root =>
      obtain ⟨rfl, rfl, hm⟩ := h
      rw [hm.eq hP]
    | derived => exact h.elim
  | derived id name methods superclass ih =>
    cases d with
    | root => exact h.elim
    | derived =>
      obtain ⟨rfl, rfl, hm, hs⟩ := h
      rw [hm.eq hP, ih hs]

theorem Value.Rel.eq {v w : Value ρ ε} (hP : ∀ f g, P f g → f = g) (hQ : ∀ f g, Q f g → f = g)
    (h : v.Rel P Q w) : v = w := by
  unfold Value.Rel at h
  split at h
  · rfl
  · rw [h]
  · rw [h]
  · rw [h]
  · rw [h]
  · rw [hP _ _ h]
  · rw [Class.Rel.eq hQ h]
  · rw [h.1, h.2.eq hQ]
  · exact h.elim

end

/-- A machine whose functions have homes. -/
structure Household where
  ledger : Ledger
  machine : Machine
  keeps : ledger.Keeps machine

namespace Household

structure Later (s t : Household) : Prop where
  ledger : s.ledger.Agrees s.machine.created t.ledger
  created : s.machine.created ≤ t.machine.created
  environments : s.machine.environments.Retains t.machine.environments
  current : t.machine.current = s.machine.current

theorem Later.trans {s t u : Household} (h : s.Later t) (h' : t.Later u) : s.Later u where
  ledger id hid := (h'.ledger id (Nat.lt_of_lt_of_le hid h.created)).trans (h.ledger id hid)
  created := Nat.le_trans h.created h'.created
  environments := h.environments.trans h'.environments
  current := h'.current.trans h.current

end Household

/-- The run on the left relies on a ledger and an alarm. -/
def homes : Parallel where
  State := Household
  left s := s.machine
  right s := s.machine
  Later := Household.Later
  later_refl _ := ⟨fun _ _ => rfl, Nat.le_refl _, .refl _, rfl⟩
  later_trans := Household.Later.trans
  Told := Ledger × Failure
  Confirms s told := s.ledger.Agrees s.machine.created told.1
  confirms_later h hw id hid :=
    (hw id (Nat.lt_of_lt_of_le hid h.created)).trans (h.ledger id hid)
  Fails f g := f = g
  fails_refl _ := rfl
  Function s f g := f = g ∧ s.ledger.Lodges s.machine.created s.machine.environments f
  Method s f g := f = g ∧ s.ledger.Offers s.machine.created s.machine.environments f
  function_later h hf := ⟨hf.1, hf.2.mono h.ledger h.created h.environments⟩
  method_later h hf := ⟨hf.1, hf.2.mono h.ledger h.created h.environments⟩
  id_eq h := congrArg Closure.id h.1
  name_eq h := congrArg Closure.name h.1
  arity_eq h := congrArg Closure.arity h.1
  methodArity_eq h := congrArg Closure.arity h.1

end Lox

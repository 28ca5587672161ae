import Lox.Proofs.Correspondence

/-! Runs side by side. A machine and a store mirror each other when every name that a local
environment binds is kept at the location that stands for it, and all else is alike. Steps that are
taken on both sides keep them so, and leave the names of older environments where they are. -/

namespace Lox

/-- Errors of the program are the same on both sides; the limits of the host are where the fuel
runs out. -/
def Failure.Matches : Failure → Lexical.Stop → Prop
  | .runtime e, .runtime e' => e = e' ∧ e.cause ≠ .tooDeeplyNested
  | .runtime e, .outOfFuel => e.cause = .tooDeeplyNested
  | .exhausted, .outOfFuel => True
  | .outOfTurns, .outOfFuel => True
  | _, _ => False

namespace Lexical

/-- A machine, a store, and the location that stands for each name of an environment. -/
structure Twin where
  machine : Machine
  store : Store
  place : Nat → String → Option Nat

namespace Twin

def world (t : Twin) : World := ⟨t.machine.environments, t.place⟩

/-- Environments from `n` on may still be given names. -/
structure Mirrored (n : Nat) (t : Twin) : Prop where
  older : n ≤ t.machine.environments.frames.size
  exists_ : Machine.globals < t.machine.environments.frames.size
  within : ∀ e x l, t.place e x = some l →
    e ≠ Machine.globals ∧ e < t.machine.environments.frames.size ∧ l < t.store.cells.size
  apart : ∀ e x e' x' l, t.place e x = some l → t.place e' x' = some l → e = e' ∧ x = x'
  cells : ∀ (e : Nat) (x : String) (v : Value), e ≠ Machine.globals →
    t.machine.environments.find? e x = some v →
      ∃ l w, t.place e x = some l ∧ t.store.cells[l]? = some w ∧ t.world.Alike v w
  globals : Bindings.Rel t.world.Alike (t.machine.environments.bindings Machine.globals)
    t.store.globals
  objects_size : t.machine.objects.size = t.store.objects.size
  objects : ∀ (i : Nat) (b : Bindings Value) (c : Bindings Datum), t.machine.objects[i]? = some b →
    t.store.objects[i]? = some c → Bindings.Rel t.world.Alike b c
  created : t.machine.created = t.store.created
  callDepth : t.machine.callDepth = t.store.callDepth
  clock : t.machine.clock = t.store.clock
  output : t.machine.events.output = t.store.output

structure Later (n : Nat) (t t' : Twin) : Prop where
  grows : t.world.Grows t'.world
  kept : ∀ e < n, t'.place e = t.place e
  current : t'.machine.current = t.machine.current

variable {n n' : Nat} {t t' t'' : Twin}

theorem Later.refl (n : Nat) (t : Twin) : t.Later n t := ⟨.refl _, fun _ _ => rfl, rfl⟩

theorem Later.trans (h : t.Later n t') (h' : t'.Later n t'') : t.Later n t'' :=
  ⟨h.grows.trans h'.grows, fun e he => (h'.kept e he).trans (h.kept e he),
    h'.current.trans h.current⟩

theorem Later.narrow (h : t.Later n' t') (hn : n ≤ n') : t.Later n t' :=
  ⟨h.grows, fun e he => h.kept e (Nat.lt_of_lt_of_le he hn), h.current⟩

theorem Mirrored.close (h : t.Mirrored n) : t.Mirrored t.machine.environments.frames.size :=
  { h with older := Nat.le_refl _ }

theorem Mirrored.narrow (h : t.Mirrored n') (hn : n ≤ n') : t.Mirrored n :=
  { h with older := Nat.le_trans hn h.older }

end Twin

section
variable {α β α' β' : Type}

/-- Two results of steps taken from `t`. Once the machine has met a fault nothing is said. -/
def Meets (n : Nat) (t : Twin) (Q : World → α → β → Prop) :
    EStateM.Result Failure Machine α → EStateM.Result Stop Store β → Prop
  | .ok a m, .ok b s => ∃ place, let t' : Twin := ⟨m, s, place⟩
    t'.Mirrored n ∧ t.Later n t' ∧ Q t'.world a b
  | .error (.fault _) _, _ => True
  | .error f m, .error stop s => f.Matches stop ∧ ∃ place, (⟨m, s, place⟩ : Twin).Mirrored n
  | _, _ => False

/-- `x` on the machine and `y` on the store go alike. -/
def Sim (n : Nat) (t : Twin) (x : Eval α) (y : Run β) (Q : World → α → β → Prop) : Prop :=
  Meets n t Q (x t.machine) (y t.store)

variable {n k : Nat} {t t' : Twin} {x : Eval α} {y : Run β} {Q Q' : World → α → β → Prop}

theorem Meets.mono {r : EStateM.Result Failure Machine α} {r' : EStateM.Result Stop Store β}
    (h : Meets n t' Q r r') (hl : t.Later n t')
    (hQ : ∀ W a b, t'.world.Grows W → Q W a b → Q' W a b) : Meets n t Q' r r' := by
  cases r with
  | ok a m =>
    cases r' with
    | ok b s =>
      obtain ⟨place, hr, hl', hq⟩ := h
      exact ⟨place, hr, hl.trans hl', hQ _ a b hl'.grows hq⟩
    | error stop s => exact h.elim
  | error f m =>
    cases f with
    | fault => trivial
    | _ =>
      cases r' with
      | ok b s => exact h.elim
      | error stop s => exact h

theorem Sim.mono (h : Sim n t x y Q) (hQ : ∀ W a b, t.world.Grows W → Q W a b → Q' W a b) :
    Sim n t x y Q' :=
  Meets.mono h (.refl n t) hQ

theorem Sim.pure (ht : t.Mirrored n) {a : α} {b : β} (h : Q t.world a b) :
    Sim n t (Pure.pure a) (Pure.pure b) Q :=
  ⟨t.place, ht, .refl n t, h⟩

/-- What comes first may be said to leave more environments alone than what follows. -/
theorem Sim.bind_of_le {f : α → Eval α'} {g : β → Run β'} {R : World → α' → β' → Prop}
    (h : Sim k t x y Q) (hn : n ≤ k)
    (hf : ∀ a b t', t'.Mirrored n → t.Later k t' → Q t'.world a b → Sim n t' (f a) (g b) R) :
    Sim n t (x >>= f) (y >>= g) R := by
  show Meets n t R (EStateM.bind x f t.machine) (EStateM.bind y g t.store)
  unfold EStateM.bind
  unfold Sim at h
  generalize x t.machine = r at h ⊢
  generalize y t.store = r' at h ⊢
  cases r with
  | ok a m =>
    cases r' with
    | ok b s =>
      obtain ⟨place, hr, hl, hq⟩ := h
      exact Meets.mono (hf a b _ (hr.narrow hn) hl hq) (hl.narrow hn) fun _ _ _ _ hR => hR
    | error stop s => exact h.elim
  | error f m =>
    cases f with
    | fault => trivial
    | _ =>
      cases r' with
      | ok b s => exact h.elim
      | error stop s =>
        obtain ⟨hf, place, hr⟩ := h
        exact ⟨hf, place, hr.narrow hn⟩

theorem Sim.bind {f : α → Eval α'} {g : β → Run β'} {R : World → α' → β' → Prop}
    (h : Sim n t x y Q)
    (hf : ∀ a b t', t'.Mirrored n → t.Later n t' → Q t'.world a b → Sim n t' (f a) (g b) R) :
    Sim n t (x >>= f) (y >>= g) R :=
  h.bind_of_le (Nat.le_refl n) hf

theorem Sim.after {x' : Eval α} {y' : Run β} (h : Sim n t' x' y' Q) (hl : t.Later n t')
    (hx : x t.machine = x' t'.machine) (hy : y t.store = y' t'.store) : Sim n t x y Q := by
  unfold Sim
  rw [hx, hy]
  exact Meets.mono h hl fun _ _ _ _ hQ => hQ

theorem Sim.raise (ht : t.Mirrored n) {cause : Cause} (hc : cause ≠ .tooDeeplyNested) (line : Nat) :
    Sim n t (Eval.raise cause line) (raise cause line) Q :=
  ⟨⟨rfl, hc⟩, t.place, ht⟩

theorem Sim.fault (f : Fault) : Sim n t (throw (.fault f) : Eval α) y Q := by
  show Meets n t Q (.error (.fault f) t.machine) (y t.store)
  cases y t.store <;> trivial

theorem Sim.get {f : Machine → Eval α} {g : Store → Run β}
    (h : Sim n t (f t.machine) (g t.store) Q) :
    Sim n t (MonadState.get >>= f) (MonadState.get >>= g) Q := h

theorem Sim.getMachine {f : Machine → Eval α} (h : Sim n t (f t.machine) y Q) :
    Sim n t (MonadState.get >>= f) y Q := h

theorem Sim.getStore {g : Store → Run β} (h : Sim n t x (g t.store) Q) :
    Sim n t x (MonadState.get >>= g) Q := h

theorem Sim.step {a : α} {b : β} {m : Machine} {s : Store}
    (hx : x t.machine = .ok a m) (hy : y t.store = .ok b s)
    (ht : (⟨m, s, t.place⟩ : Twin).Mirrored n) (hl : t.Later n ⟨m, s, t.place⟩)
    (hq : Q ⟨m.environments, t.place⟩ a b) : Sim n t x y Q := by
  unfold Sim
  rw [hx, hy]
  exact ⟨t.place, ht, hl, hq⟩

end

section
variable {n : Nat} {t : Twin}

theorem ofOperator_sim (ht : t.Mirrored n) (line : Nat) {r : Except Cause Value}
    {r' : Except Cause Datum}
    (h : Value.RelResult t.world.SameFunction t.world.SameMethod r r') :
    Sim n t (Eval.ofOperator line r) (ofOperator line r') fun W v w => W.Alike v w := by
  cases r with
  | ok v =>
    cases r' with
    | ok w => exact .pure ht h
    | error c => exact h.elim
  | error c =>
    cases r' with
    | ok w => exact h.elim
    | error c' =>
      obtain ⟨rfl, hc⟩ := h
      exact .raise ht hc line

theorem printLine_sim (ht : t.Mirrored n) (text : String) :
    Sim n t (Eval.emit (.printed text)) (printLine text) fun _ _ _ => True := by
  refine .step rfl rfl { ht with output := ?_ } ⟨.refl _, fun _ _ => rfl, rfl⟩
    trivial
  rw [Transcript.output_cons, ht.output]
  rfl

theorem trace_mirrored (ht : t.Mirrored n) (line : Nat) (kind : String) :
    Twin.Mirrored n
      { t with machine := { t.machine with events := .traced line kind :: t.machine.events } } := by
  refine { ht with output := ?_ }
  rw [Transcript.output_cons, ht.output]
  exact String.append_empty

theorem readClock_sim (ht : t.Mirrored n) :
    Sim n t Eval.readClock readClock fun W v w => W.Alike v w :=
  .step rfl rfl { ht with clock := congrArg (· + Machine.tick) ht.clock }
    ⟨.refl _, fun _ _ => rfl, rfl⟩ ht.clock

theorem nextId_sim (ht : t.Mirrored n) :
    Sim n t Eval.nextId nextId fun _ i j => i = j :=
  .step rfl rfl { ht with created := congrArg (· + 1) ht.created }
    ⟨.refl _, fun _ _ => rfl, rfl⟩ ht.created

theorem newInstance_sim (ht : t.Mirrored n) {c : Class} {d : Blueprint}
    (hc : c.Rel t.world.SameMethod d) :
    Sim n t (Eval.newInstance c) (newInstance d) fun W v w =>
      W.Alike v w ∧ (∃ ref, v = .object ref c) ∧ ∃ ref, w = .object ref d := by
  refine .step rfl rfl { ht with
    objects_size := ?_
    objects := fun i b b' hb hb' => ?_ } ⟨.refl _, fun _ _ => rfl, rfl⟩
    ⟨⟨ht.objects_size, hc⟩, ⟨_, rfl⟩, _, rfl⟩
  · simp [ht.objects_size]
  · simp only [Array.getElem?_push, ht.objects_size] at hb hb'
    split at hb
    · next hi =>
      rw [if_pos hi] at hb'
      cases hb
      cases hb'
      exact .nil
    · next hi =>
      rw [if_neg hi] at hb'
      exact ht.objects i b b' hb hb'

theorem getField?_sim (ht : t.Mirrored n) (ref : Nat) (name : String) :
    Sim n t (Eval.getField? ref name) (getField? ref name) fun W v? w? =>
      (v? = none ∧ w? = none) ∨ ∃ v w, v? = some v ∧ w? = some w ∧ W.Alike v w := by
  refine .step rfl rfl ht (.refl n t) ?_
  cases hb : t.machine.objects[ref]? with
  | none =>
    have hc : t.store.objects[ref]? = none := by
      rw [Array.getElem?_eq_none_iff] at hb ⊢
      have hs := ht.objects_size
      omega
    simp [hc]
  | some b =>
    have hlt : ref < t.store.objects.size := by
      have hs := ht.objects_size
      have hl := (Array.getElem?_eq_some_iff.1 hb).1
      omega
    have hc := Array.getElem?_eq_getElem hlt
    have hr := (ht.objects ref b _ hb hc).find? name
    rw [hc]
    exact hr

theorem setField_sim (ht : t.Mirrored n) (ref : Nat) (name : String) {v : Value} {w : Datum}
    (hv : t.world.Alike v w) :
    Sim n t (Eval.setField ref name v) (setField ref name w) fun _ _ _ => True := by
  refine .step rfl rfl { ht with
    objects_size := ?_
    objects := fun i b b' hb hb' => ?_ } ⟨.refl _, fun _ _ => rfl, rfl⟩ trivial
  · simp [ht.objects_size]
  · simp only [Array.getElem?_modify] at hb hb'
    split at hb
    · next hi =>
      rw [if_pos hi] at hb'
      obtain ⟨c, hc, rfl⟩ := Option.map_eq_some_iff.1 hb
      obtain ⟨c', hc', rfl⟩ := Option.map_eq_some_iff.1 hb'
      exact (ht.objects i c c' hc hc').put name hv
    · next hi =>
      rw [if_neg hi] at hb'
      exact ht.objects i b b' hb hb'

end

section
variable {α β : Type} {n : Nat} {t : Twin} {x : Eval α} {y : Run β} {Q : World → α → β → Prop}

/-- A new environment that binds nothing yet is no step for the store. -/
theorem Sim.newEnvironment (ht : t.Mirrored n) {p : Nat}
    (hp : p < t.machine.environments.frames.size) {f : Nat → Eval α}
    (h : ∀ e t', t'.Mirrored n → t.Later n t' → n ≤ e → p < e →
      e < t'.machine.environments.frames.size → t'.machine.environments.link? e = some p →
      (∀ x, t'.place e x = none) → Sim n t' (f e) y Q) :
    Sim n t (Eval.newEnvironment p [] >>= f) y Q := by
  let envs := (t.machine.environments.create (some p) []).2
  let t' : Twin := { t with machine := { t.machine with environments := envs } }
  have hg : t.world.Grows t'.world := ⟨Environments.grows_create .., fun _ _ _ h => h⟩
  have hsize : envs.frames.size = t.machine.environments.frames.size + 1 :=
    Environments.size_create ..
  have hglobals : envs.bindings Machine.globals =
      t.machine.environments.bindings Machine.globals := by
    rw [Environments.bindings_create, if_neg (Nat.ne_of_lt ht.exists_)]
  have ht' : t'.Mirrored n := { ht with
    older := Nat.le_trans ht.older hg.envs.size
    exists_ := Nat.lt_of_lt_of_le ht.exists_ hg.envs.size
    within := fun e x l hl => ?_
    cells := fun e x v he hv => ?_
    globals := ?_
    objects := fun i b c hb hc => (ht.objects i b c hb hc).mono fun _ _ h => h.mono hg }
  · have hl : t.Later n t' := ⟨hg, fun _ _ => rfl, rfl⟩
    refine (h _ t' ht' hl ht.older hp ?_ ?_ fun x => ?_).after hl rfl rfl
    · show _ < envs.frames.size
      omega
    · show envs.link? _ = _
      rw [Environments.link?_create, if_pos rfl]
    · cases hx : t.place t.machine.environments.frames.size x with
      | none => rfl
      | some l => exact absurd (ht.within _ x l hx).2.1 (Nat.lt_irrefl _)
  · obtain ⟨he, hlt, hl⟩ := ht.within e x l hl
    exact ⟨he, Nat.lt_of_lt_of_le hlt hg.envs.size, hl⟩
  · have hv : envs.find? e x = some v := hv
    rw [Environments.find?_create] at hv
    split at hv
    · cases hv
    · obtain ⟨l, w, hl, hw, ha⟩ := ht.cells e x v he hv
      exact ⟨l, w, hl, hw, ha.mono hg⟩
  · show Bindings.Rel _ (envs.bindings Machine.globals) _
    rw [hglobals]
    exact ht.globals.mono fun _ _ h => h.mono hg

/-- A name that is declared gets a location before the machine binds it. -/
theorem Sim.declare (ht : t.Mirrored n) {e : Nat} (he : e ≠ Machine.globals)
    (hsize : e < t.machine.environments.frames.size) (hn : n ≤ e) {name : String}
    (hname : t.place e name = none) {b : Bindings Nat} {g : Scope → Run β}
    (h : ∀ l t', t'.Mirrored n → t.Later n t' → t'.place e name = some l →
      (∀ y, y ≠ name → t'.place e y = t.place e y) →
      Sim n t' x (g (.local_ ((name, l) :: b))) Q) :
    Sim n t x (declare name (.local_ b) >>= g) Q := by
  let l := t.store.cells.size
  let place (e' : Nat) (y : String) := if e' = e ∧ y = name then some l else t.place e' y
  let t' : Twin := ⟨t.machine, { t.store with cells := t.store.cells.push .nil }, place⟩
  have hplace {e' : Nat} {y : String} {k : Nat} (hk : t.place e' y = some k) :
      place e' y = some k := by
    by_cases hc : e' = e ∧ y = name
    · rw [hc.1, hc.2, hname] at hk
      cases hk
    · simp only [place, if_neg hc, hk]
  have hg : t.world.Grows t'.world := ⟨.refl _, fun _ _ _ h => hplace h⟩
  have ht' : t'.Mirrored n := { ht with
    within := fun e' y k hk => ?_
    apart := fun e₁ x₁ e₂ x₂ k h₁ h₂ => ?_
    cells := fun e' y v he' hv => ?_
    globals := ht.globals.mono fun _ _ h => h.mono hg
    objects := fun i b c hb hc => (ht.objects i b c hb hc).mono fun _ _ h => h.mono hg }
  · refine (h l t' ht' ⟨hg, fun e' he' => ?_, rfl⟩ (if_pos ⟨rfl, rfl⟩) fun y hy => ?_).after
      ⟨hg, fun e' he' => ?_, rfl⟩ rfl rfl
    · funext y
      exact if_neg fun hc => by omega
    · exact if_neg fun hc => hy hc.2
    · funext y
      exact if_neg fun hc => by omega
  · have hk : place e' y = some k := hk
    have hpush : (t.store.cells.push .nil).size = l + 1 := by simp [l]
    by_cases hc : e' = e ∧ y = name
    · simp only [place, if_pos hc] at hk
      cases hk
      refine ⟨hc.1 ▸ he, hc.1 ▸ hsize, ?_⟩
      show l < (t.store.cells.push .nil).size
      omega
    · simp only [place, if_neg hc] at hk
      obtain ⟨h₁, h₂, h₃⟩ := ht.within e' y k hk
      refine ⟨h₁, h₂, ?_⟩
      show k < (t.store.cells.push .nil).size
      omega
  · have h₁ : place e₁ x₁ = some k := h₁
    have h₂ : place e₂ x₂ = some k := h₂
    simp only [place] at h₁ h₂
    split at h₁ <;> split at h₂
    · next hc₁ hc₂ => exact ⟨hc₁.1.trans hc₂.1.symm, hc₁.2.trans hc₂.2.symm⟩
    · cases h₁
      exact absurd (ht.within e₂ x₂ l h₂).2.2 (Nat.lt_irrefl _)
    · cases h₂
      exact absurd (ht.within e₁ x₁ l h₁).2.2 (Nat.lt_irrefl _)
    · exact ht.apart e₁ x₁ e₂ x₂ k h₁ h₂
  · obtain ⟨k, w, hk, hw, ha⟩ := ht.cells e' y v he' hv
    refine ⟨k, w, hplace hk, ?_, ha.mono hg⟩
    have hlt := (ht.within e' y k hk).2.2
    show (t.store.cells.push .nil)[k]? = some w
    rw [Array.getElem?_push, if_neg (Nat.ne_of_lt hlt)]
    exact hw

end

section
variable {n : Nat} {t : Twin} {v : Value} {w : Datum} {s : Surroundings} {scope : Scope}

theorem defineIn_sim (ht : t.Mirrored n) {e : Nat} {name : String} {l : Nat}
    (hl : t.place e name = some l) (hv : t.world.Alike v w) :
    Sim n t (Eval.defineIn e name v) (write l w) fun W _ _ => (W.envs.find? e name).isSome := by
  let envs := t.machine.environments.define e name v
  obtain ⟨he, hsize, hcell⟩ := ht.within e name l hl
  have hg : t.world.Grows ⟨envs, t.place⟩ := ⟨Environments.grows_define .., fun _ _ _ h => h⟩
  have hglobals : envs.bindings Machine.globals =
      t.machine.environments.bindings Machine.globals := by
    rw [Environments.bindings_define, if_neg fun hc => he hc.1]
  have hbound : (envs.find? e name).isSome := by
    rw [Environments.find?_define hsize, if_pos ⟨rfl, rfl⟩]
    rfl
  refine .step rfl rfl { ht with
    older := Nat.le_trans ht.older hg.envs.size
    exists_ := Nat.lt_of_lt_of_le ht.exists_ hg.envs.size
    within := fun e' y k hk => ?_
    cells := fun e' y u he' hu => ?_
    globals := ?_
    objects := fun i b c hb hc => (ht.objects i b c hb hc).mono fun _ _ h => h.mono hg }
    ⟨hg, fun _ _ => rfl, rfl⟩ hbound
  · obtain ⟨h₁, h₂, h₃⟩ := ht.within e' y k hk
    refine ⟨h₁, Nat.lt_of_lt_of_le h₂ hg.envs.size, ?_⟩
    show k < (t.store.cells.setIfInBounds l w).size
    rwa [Array.size_setIfInBounds]
  · have hu : envs.find? e' y = some u := hu
    show ∃ k w', t.place e' y = some k ∧ (t.store.cells.setIfInBounds l w)[k]? = some w' ∧ _
    rw [Environments.find?_define hsize] at hu
    split at hu
    · next hc =>
      cases hu
      obtain ⟨rfl, rfl⟩ := hc
      exact ⟨l, w, hl, by simp [hcell], hv.mono hg⟩
    · next hc =>
      obtain ⟨k, w', hk, hw', ha⟩ := ht.cells e' y u he' hu
      have hne : l ≠ k := by
        intro hlk
        subst hlk
        exact hc (ht.apart e name e' y l hl hk)
      refine ⟨k, w', hk, ?_, ha.mono hg⟩
      rw [Array.getElem?_setIfInBounds, if_neg hne]
      exact hw'
  · show Bindings.Rel _ (envs.bindings Machine.globals) _
    rw [hglobals]
    exact ht.globals.mono fun _ _ h => h.mono hg

theorem defineGlobal_sim (ht : t.Mirrored n) (name : String) (hv : t.world.Alike v w) :
    Sim n t (Eval.defineIn Machine.globals name v) (writeGlobal name w) fun W _ _ =>
      (W.envs.find? Machine.globals name).isSome := by
  let envs := t.machine.environments.define Machine.globals name v
  have hg : t.world.Grows ⟨envs, t.place⟩ := ⟨Environments.grows_define .., fun _ _ _ h => h⟩
  have hbound : (envs.find? Machine.globals name).isSome := by
    rw [Environments.find?_define ht.exists_, if_pos ⟨rfl, rfl⟩]
    rfl
  refine .step rfl rfl { ht with
    older := Nat.le_trans ht.older hg.envs.size
    exists_ := Nat.lt_of_lt_of_le ht.exists_ hg.envs.size
    within := fun e' y k hk => ?_
    cells := fun e' y u he' hu => ?_
    globals := ?_
    objects := fun i b c hb hc => (ht.objects i b c hb hc).mono fun _ _ h => h.mono hg }
    ⟨hg, fun _ _ => rfl, rfl⟩ hbound
  · obtain ⟨h₁, h₂, h₃⟩ := ht.within e' y k hk
    exact ⟨h₁, Nat.lt_of_lt_of_le h₂ hg.envs.size, h₃⟩
  · have hu : envs.find? e' y = some u := hu
    rw [Environments.find?_define ht.exists_, if_neg fun hc => he' hc.1.symm] at hu
    obtain ⟨k, w', hk, hw', ha⟩ := ht.cells e' y u he' hu
    exact ⟨k, w', hk, hw', ha.mono hg⟩
  · show Bindings.Rel _ (envs.bindings Machine.globals) _
    rw [Environments.bindings_define, if_pos ⟨rfl, ht.exists_⟩]
    exact (ht.globals.mono fun _ _ h => h.mono hg).put name (hv.mono hg)

/-- The name that a statement declares is defined in the current environment and in its own cell. -/
theorem define_sim (ht : t.Mirrored n) (hs : t.world.Shows t.machine.current s scope)
    {name : String} (hname : s.scopes ≠ [] → s.hops name = some 0) (hv : t.world.Alike v w) :
    Sim n t (Eval.define name v) (define scope name w) fun W _ _ =>
      (W.envs.find? t.machine.current name).isSome := by
  show Sim n t (Eval.defineIn t.machine.current name v) (define scope name w) _
  unfold define
  by_cases hn : s.scopes = []
  · obtain ⟨he, rfl⟩ := hs.global hn
    rw [he]
    exact defineGlobal_sim ht name hv
  · obtain ⟨a, l, ha, hl, hx⟩ := hs.found name 0 (hname hn)
    cases ha
    simp only [hx]
    exact defineIn_sim ht hl hv

/-- What the machine finds where a name is, the store holds at the location of the name. -/
theorem found_alike (ht : t.Mirrored n) {e : Nat} (hs : t.world.Shows e s scope) {x : String}
    {d : Nat} (hd : s.hops x = some d) :
    ∃ a l, t.machine.environments.ancestor? e d = some a ∧
      t.place a x = some l ∧ scope.location? x = some l ∧
      ∀ v, t.machine.environments.find? a x = some v →
        ∃ w, t.store.cells[l]? = some w ∧ t.world.Alike v w := by
  obtain ⟨a, l, ha, hl, hx⟩ := hs.found x d hd
  refine ⟨a, l, ha, hl, hx, fun v hv => ?_⟩
  obtain ⟨l', w, hl', hw, hvw⟩ := ht.cells a x v (ht.within a x l hl).1 hv
  have he : t.place a x = some l := hl
  rw [he] at hl'
  cases hl'
  exact ⟨w, hw, hvw⟩

theorem lookUp_sim (ht : t.Mirrored n) (hs : t.world.Shows t.machine.current s scope)
    (name : Token) :
    Sim n t (Eval.lookUp name (s.hops name.lexeme)) (lookUp scope name)
      fun W v w => W.Alike v w := by
  refine Sim.get ?_
  cases hd : s.hops name.lexeme with
  | none =>
    simp only [hs.free _ hd]
    have hget : t.machine.environments.get? Machine.globals name.lexeme =
        Bindings.find? (t.machine.environments.bindings Machine.globals) name.lexeme :=
      Environments.get?_zero ..
    rw [hget]
    rcases ht.globals.find? name.lexeme with ⟨hv, hw⟩ | ⟨v, w, hv, hw, hvw⟩
    · simp only [hv, hw]
      exact .raise ht (by simp) _
    · simp only [hv, hw]
      exact .pure ht hvw
  | some d =>
    obtain ⟨a, l, ha, -, hx, hf⟩ := found_alike ht hs hd
    simp only [hx, Environments.getAt, Environments.ancestor, ha]
    cases hv : t.machine.environments.find? a name.lexeme with
    | none => exact .fault _
    | some v =>
      obtain ⟨w, hw, hvw⟩ := hf v hv
      simp only [hw, Option.getD_some]
      exact .pure ht hvw

theorem assign_sim (ht : t.Mirrored n) (hs : t.world.Shows t.machine.current s scope)
    (name : Token) (hv : t.world.Alike v w) :
    Sim n t (Eval.assign name (s.hops name.lexeme) v) (assign scope name w) fun _ _ _ => True := by
  unfold assign
  cases hd : s.hops name.lexeme with
  | none =>
    simp only [hs.free _ hd]
    refine Sim.get ?_
    have howner : t.machine.environments.owner? name.lexeme Machine.globals =
        if (Bindings.find? (t.machine.environments.bindings Machine.globals) name.lexeme).isSome
        then some Machine.globals else none :=
      Environments.owner?_zero ..
    simp only [howner]
    rcases ht.globals.find? name.lexeme with ⟨hf, hf'⟩ | ⟨u, u', hf, hf', -⟩
    · simp only [hf, hf']
      exact .raise ht (by simp) _
    · simp only [hf, hf']
      exact (defineGlobal_sim ht name.lexeme hv).mono fun _ _ _ _ _ => trivial
  | some d =>
    obtain ⟨a, l, ha, hl, hx, -⟩ := found_alike ht hs hd
    simp only [hx]
    refine Sim.getMachine ?_
    simp only [Environments.ancestor, ha]
    exact (defineIn_sim ht hl hv).mono fun _ _ _ _ _ => trivial

theorem assignFrom_sim (ht : t.Mirrored n) (hs : t.world.Shows t.machine.current s scope)
    {name : Token} (hname : s.scopes ≠ [] → s.hops name.lexeme = some 0)
    (hb : (t.machine.environments.find? t.machine.current name.lexeme).isSome)
    (hv : t.world.Alike v w) :
    Sim n t (Eval.assignFrom t.machine.current name v) (define scope name.lexeme w)
      fun _ _ _ => True := by
  refine Sim.getMachine ?_
  simp only [Environments.owner?_self hb]
  exact (define_sim ht hs hname hv).mono fun _ _ _ _ _ => trivial

theorem Sim.special {α β : Type} {Q : World → α → β → Prop} {f : Value → Eval α}
    {g : Datum → Run β} (ht : t.Mirrored n) {e : Nat} (hs : t.world.Shows e s scope) {x : String}
    {d : Nat} (hd : s.hops x = some d)
    (h : ∀ v w, t.world.Alike v w → Sim n t (f v) (g w) Q) :
    Sim n t (Eval.ofFault (t.machine.environments.getAt e d x) >>= f)
      (special scope x >>= g) Q := by
  obtain ⟨a, l, ha, -, hx, hf⟩ := found_alike ht hs hd
  refine Sim.getStore
    (g := fun σ => Pure.pure (((scope.location? x).bind (σ.cells[·]?)).getD .nil) >>= g) ?_
  simp only [Environments.getAt, Environments.ancestor, ha, hx, Option.bind_some]
  cases hv : t.machine.environments.find? a x with
  | none => exact .fault _
  | some v =>
    obtain ⟨w, hw, hvw⟩ := hf v hv
    simp only [hw, Option.getD_some]
    exact h v w hvw

theorem special_sim (ht : t.Mirrored n) {e : Nat} (hs : t.world.Shows e s scope) {x : String}
    {d : Nat} (hd : s.hops x = some d) :
    Sim n t (Eval.ofFault (t.machine.environments.getAt e d x)) (special scope x) World.Alike := by
  rw [← bind_pure (Eval.ofFault _), ← bind_pure (Lexical.special scope x)]
  exact Sim.special ht hs hd fun v w hvw => .pure ht hvw

end

section
variable {α β : Type} {n : Nat} {t : Twin} {x : Eval α} {y : Run β} {Q : World → α → β → Prop}

/-- Which environment is the current one is no matter for the store. -/
theorem inEnvironment_sim {e : Nat}
    (h : Sim n { t with machine := { t.machine with current := e } } x y Q) :
    Sim n t (Eval.inEnvironment e x) y Q := by
  unfold Sim at h ⊢
  unfold Eval.inEnvironment
  generalize x { t.machine with current := e } = r at h ⊢
  generalize y t.store = r' at h ⊢
  cases r with
  | ok a m =>
    cases r' with
    | ok b s =>
      obtain ⟨place, hr, hl, hq⟩ := h
      exact ⟨place, { hr with }, ⟨hl.grows, hl.kept, rfl⟩, hq⟩
    | error stop s => exact h.elim
  | error f m =>
    cases f with
    | fault => trivial
    | _ =>
      cases r' with
      | ok b s => exact h.elim
      | error stop s =>
        obtain ⟨hf, place, hr⟩ := h
        exact ⟨hf, place, { hr with }⟩

theorem inCall_sim (line : Nat)
    (h : Sim n { t with
      machine := { t.machine with callDepth := t.machine.callDepth + 1 }
      store := { t.store with callDepth := t.store.callDepth + 1 } } x y Q) :
    Sim n t (Eval.inCall line x) (inCall y) Q := by
  unfold Sim at h ⊢
  unfold Eval.inCall inCall
  generalize x { t.machine with callDepth := t.machine.callDepth + 1 } = r at h ⊢
  generalize y { t.store with callDepth := t.store.callDepth + 1 } = r' at h ⊢
  cases r with
  | ok a m =>
    cases r' with
    | ok b s =>
      obtain ⟨place, hr, hl, hq⟩ := h
      exact ⟨place, { hr with callDepth := congrArg (· - 1) hr.callDepth },
        ⟨hl.grows, hl.kept, hl.current⟩, hq⟩
    | error stop s => exact h.elim
  | error f m =>
    cases r' with
    | ok b s => cases f <;> trivial
    | error stop s =>
      cases f with
      | fault => trivial
      | exhausted =>
        obtain ⟨hf, place, hr⟩ := h
        cases stop with
        | runtime e => exact hf.elim
        | outOfFuel => exact ⟨rfl, place, { hr with callDepth := congrArg (· - 1) hr.callDepth }⟩
      | _ =>
        obtain ⟨hf, place, hr⟩ := h
        exact ⟨hf, place, { hr with callDepth := congrArg (· - 1) hr.callDepth }⟩

end
end Lexical
end Lox

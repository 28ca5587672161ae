import Lox.Proofs.Heap
import Lox.Machine.Evaluation

/-! Sound machines. Two computations agree on a sound machine when they do the same there, find
everything that resolution promised, and leave a sound machine on which no environment has been
lost. Each step of an evaluation agrees with itself. -/

namespace Lox

def Failure.isFault : Failure → Bool
  | fault _ => true
  | _ => false

namespace Machine

structure Sound (m : Machine) : Prop where
  globals : 0 < m.environments.frames.size
  bound : ∀ (e : Nat) (x : String) (v : Value), m.environments.find? e x = some v →
    v.Fits m.environments x
  fields : ∀ (ref : Nat) (b : Bindings Value) (x : String) (v : Value),
    m.objects[ref]? = some b → b.find? x = some v → v.Good m.environments

structure Grows (m m' : Machine) : Prop where
  environments : m.environments.Grows m'.environments
  current : m'.current = m.current

theorem Grows.refl (m : Machine) : m.Grows m := ⟨.refl _, rfl⟩

theorem Grows.trans {m m' m'' : Machine} (h : m.Grows m') (h' : m'.Grows m'') : m.Grows m'' :=
  ⟨h.environments.trans h'.environments, h'.current.trans h.current⟩

/-- The machine stands at a place of an accepted program. -/
structure StandsAt (m : Machine) (s : Surroundings) : Prop where
  supports : m.environments.Supports m.current s
  lawful : s.Lawful

theorem StandsAt.mono {m m' : Machine} {s : Surroundings} (h : m.StandsAt s) (hg : m.Grows m') :
    m'.StandsAt s :=
  ⟨hg.current ▸ h.supports.mono hg.environments, h.lawful⟩

theorem Sound.standsAt {m : Machine} (h : m.Sound) (hc : m.current = Machine.globals) :
    m.StandsAt .topLevel := by
  refine ⟨⟨hc ▸ h.globals, fun x d hd => ?_⟩, Surroundings.lawful_topLevel⟩
  rw [Surroundings.hops_of_global rfl] at hd
  cases hd

theorem StandsAt.getAt {m : Machine} {s : Surroundings} (hm : m.Sound)
    (hs : m.StandsAt s) {x : String} {d : Nat}
    (hd : s.hops x = some d) (hu : s.unready x = false) :
    ∃ v, m.environments.getAt m.current d x = .ok v ∧ v.Fits m.environments x := by
  obtain ⟨a, ha, hb⟩ := hs.supports.finds x d hd
  obtain ⟨v, hv⟩ := Option.isSome_iff_exists.1 (hb hu)
  refine ⟨v, ?_, hm.bound a x v hv⟩
  simp [Environments.getAt, Environments.ancestor, ha, hv]

end Machine

section
variable {α β : Type}

/-- On `m`, `x` does what `y` does, and that ends as `Q` says or in an error of the program. -/
def Agree (m : Machine) (x y : Eval α) (Q : Environments → α → Prop) : Prop :=
  x m = y m ∧
    match y m with
    | .ok a m' => m'.Sound ∧ m.Grows m' ∧ Q m'.environments a
    | .error f m' => m'.Sound ∧ m.Grows m' ∧ f.isFault = false

variable {m : Machine} {x y : Eval α} {Q Q' : Environments → α → Prop}

theorem Agree.mono (h : Agree m x y Q)
    (hQ : ∀ envs a, m.environments.Grows envs → Q envs a → Q' envs a) : Agree m x y Q' := by
  obtain ⟨he, hy⟩ := h
  refine ⟨he, ?_⟩
  cases hm : y m with
  | ok a m' => rw [hm] at hy; exact ⟨hy.1, hy.2.1, hQ _ a hy.2.1.environments hy.2.2⟩
  | error f m' => rw [hm] at hy; exact hy

theorem Agree.run {x y : Eval Unit} {Q : Environments → Unit → Prop} (h : Agree m x y Q) :
    m.run x = m.run y ∧ (m.run y).2.Sound ∧ ∀ f ∈ (m.run y).1, f.isFault = false := by
  obtain ⟨he, hend⟩ := h
  unfold Machine.run
  rw [he]
  cases hm : y m with
  | ok a m' =>
    rw [hm] at hend
    exact ⟨rfl, ⟨hend.1.globals, hend.1.bound, hend.1.fields⟩, fun f hf => nomatch hf⟩
  | error f m' =>
    rw [hm] at hend
    refine ⟨rfl, ⟨hend.1.globals, hend.1.bound, hend.1.fields⟩, ?_⟩
    rintro _ ⟨⟩
    exact hend.2.2

theorem Agree.pure (hm : m.Sound) {a : α} (h : Q m.environments a) :
    Agree m (Pure.pure a) (Pure.pure a) Q :=
  ⟨rfl, hm, .refl m, h⟩

theorem Agree.bind {f g : α → Eval β} {R : Environments → β → Prop} (h : Agree m x y Q)
    (hf : ∀ a m', m'.Sound → m.Grows m' → Q m'.environments a → Agree m' (f a) (g a) R) :
    Agree m (x >>= f) (y >>= g) R := by
  obtain ⟨he, hy⟩ := h
  show EStateM.bind x f m = EStateM.bind y g m ∧ match EStateM.bind y g m with
    | .ok a m' => m'.Sound ∧ m.Grows m' ∧ R m'.environments a
    | .error f m' => m'.Sound ∧ m.Grows m' ∧ f.isFault = false
  unfold EStateM.bind
  rw [he]
  cases hm : y m with
  | error f m' => rw [hm] at hy; exact ⟨rfl, hy⟩
  | ok a m' =>
    rw [hm] at hy
    obtain ⟨hs, hg, hq⟩ := hy
    obtain ⟨he', hg'⟩ := hf a m' hs hg hq
    refine ⟨he', ?_⟩
    dsimp only
    cases hn : g a m' with
    | ok b m'' => rw [hn] at hg'; exact ⟨hg'.1, hg.trans hg'.2.1, hg'.2.2⟩
    | error f m'' => rw [hn] at hg'; exact ⟨hg'.1, hg.trans hg'.2.1, hg'.2.2⟩

theorem Agree.get {f g : Machine → Eval α} (h : Agree m (f m) (g m) Q) :
    Agree m (MonadState.get >>= f) (MonadState.get >>= g) Q := h

end

namespace Eval
variable {m : Machine} {α : Type} {Q : Environments → α → Prop} {s : Surroundings}

theorem raise_agrees (hm : m.Sound) (cause : Cause) (line : Nat) :
    Agree m (raise cause line : Eval α) (raise cause line) Q :=
  ⟨rfl, hm, .refl m, rfl⟩

theorem throw_agrees (hm : m.Sound) {f : Failure} (hf : f.isFault = false) :
    Agree m (throw f : Eval α) (throw f) Q :=
  ⟨rfl, hm, .refl m, hf⟩

theorem ofOperator_agrees (hm : m.Sound) (line : Nat) (r : Except Cause α)
    (h : ∀ a, r = .ok a → Q m.environments a) :
    Agree m (ofOperator line r) (ofOperator line r) Q := by
  cases r with
  | ok a => exact .pure hm (h a rfl)
  | error cause => exact raise_agrees hm cause line

theorem modifyGet_agrees {f : Machine → α × Machine} (hs : (f m).2.Sound) (hg : m.Grows (f m).2)
    (hq : Q (f m).2.environments (f m).1) :
    Agree m (modifyGet f : Eval α) (modifyGet f) Q :=
  ⟨rfl, hs, hg, hq⟩

theorem modify_agrees {f : Machine → Machine} {Q : Environments → Unit → Prop}
    (hs : (f m).Sound) (hg : m.Grows (f m)) (hq : Q (f m).environments ()) :
    Agree m (modify f : Eval Unit) (modify f) Q :=
  ⟨rfl, hs, hg, hq⟩

theorem emit_agrees (hm : m.Sound) (e : Event) :
    Agree m (emit e) (emit e) fun _ _ => True :=
  modify_agrees ⟨hm.globals, hm.bound, hm.fields⟩ ⟨.refl _, rfl⟩ trivial

theorem nextId_agrees (hm : m.Sound) :
    Agree m nextId nextId fun _ _ => True :=
  modifyGet_agrees ⟨hm.globals, hm.bound, hm.fields⟩ ⟨.refl _, rfl⟩ trivial

theorem readClock_agrees (hm : m.Sound) :
    Agree m readClock readClock fun envs v => v.Good envs :=
  modifyGet_agrees ⟨hm.globals, hm.bound, hm.fields⟩ ⟨.refl _, rfl⟩ trivial

theorem newInstance_agrees (hm : m.Sound) {c : Class}
    (hc : c.All (Closure.GoodMethod m.environments)) :
    Agree m (newInstance c) (newInstance c)
      fun envs v => v.Good envs ∧ ∃ ref, v = .object ref c := by
  refine modifyGet_agrees ⟨hm.globals, hm.bound, fun ref b x v hb hx => ?_⟩ ⟨.refl _, rfl⟩
    ⟨hc, _, rfl⟩
  exact hm.fields ref b x v (getElem?_of_push_nil hb hx) hx

theorem setField_agrees (hm : m.Sound) (ref : Nat) (name : String) {v : Value}
    (hv : v.Good m.environments) :
    Agree m (setField ref name v) (setField ref name v) fun _ _ => True := by
  refine modify_agrees ⟨hm.globals, hm.bound, fun r b x w hb hx => ?_⟩ ⟨.refl _, rfl⟩ trivial
  rcases getElem?_of_modify_put hb hx with rfl | ⟨b', hb', hx⟩
  · exact hv
  · exact hm.fields r b' x w hb' hx

theorem getField?_agrees (hm : m.Sound) (ref : Nat) (name : String) :
    Agree m (getField? ref name) (getField? ref name) fun envs v? => ∀ v ∈ v?, v.Good envs := by
  refine Agree.get (.pure hm fun v hv => ?_)
  obtain ⟨b, hb, hx⟩ := Option.bind_eq_some_iff.1 hv
  exact hm.fields ref b name v hb hx

theorem newEnvironment_agrees (hm : m.Sound) {p : Nat} (hp : p < m.environments.frames.size)
    {b : Bindings Value} (hb : ∀ x v, b.find? x = some v → v.Fits m.environments x) :
    Agree m (newEnvironment p b) (newEnvironment p b) fun envs e =>
      p < e ∧ e < envs.frames.size ∧ envs.link? e = some p ∧
        ∀ x, (b.find? x).isSome → (envs.find? e x).isSome := by
  have hg := Environments.grows_create m.environments (some p) b
  refine modifyGet_agrees ⟨Nat.lt_of_lt_of_le hm.globals hg.size, fun e x v hv => ?_,
    fun ref b' x v hb' hx => (hm.fields ref b' x v hb' hx).mono hg⟩ ⟨hg, rfl⟩
    ⟨hp, ?_, ?_, fun x hx => ?_⟩
  · rcases Environments.of_find?_create hv with hv | hv
    · exact (hb x v hv).mono hg
    · exact (hm.bound e x v hv).mono hg
  · rw [Environments.size_create]
    exact Nat.lt_succ_self _
  · rw [Environments.link?_create]
    exact if_pos rfl
  · rw [Environments.find?_create]
    exact (congrArg Option.isSome (if_pos rfl)).trans hx

/-- What is bound need only fit the environments that bind it: a function may name itself. -/
theorem defineIn_agrees (hm : m.Sound) (e : Nat) {name : String} {v : Value}
    (hv : v.Fits (m.environments.define e name v) name) :
    Agree m (defineIn e name v) (defineIn e name v) fun envs _ =>
      envs = m.environments.define e name v := by
  have hg := Environments.grows_define m.environments e name v
  refine modify_agrees ⟨Nat.lt_of_lt_of_le hm.globals hg.size, fun e' x w hw => ?_,
    fun ref b x w hb hx => (hm.fields ref b x w hb hx).mono hg⟩ ⟨hg, rfl⟩ rfl
  rcases Environments.of_find?_define hw with ⟨rfl, rfl⟩ | hw
  · exact hv
  · exact (hm.bound e' x w hw).mono hg

theorem rebindIn_agrees (hm : m.Sound) (e : Nat) {name : String} {v : Value}
    (hv : v.Fits m.environments name) :
    Agree m (defineIn e name v) (defineIn e name v) fun _ _ => True :=
  (defineIn_agrees hm e (hv.mono (Environments.grows_define ..))).mono fun _ _ _ _ => trivial

theorem define_agrees (hm : m.Sound) (hs : m.environments.Supports m.current s) {name : String}
    {v : Value} (hv : v.Fits (m.environments.define m.current name v) name) :
    Agree m (define name v) (define name v) fun envs _ =>
      envs.Supports m.current (s.bind name true) := by
  have h : Agree m (defineIn m.current name v) (defineIn m.current name v) fun envs _ =>
      envs.Supports m.current (s.bind name true) :=
    (defineIn_agrees hm m.current hv).mono fun _ _ _ he => he ▸ hs.define name v
  exact h

theorem lookUp_agrees (hm : m.Sound) (hs : m.StandsAt s) (name : Token)
    (hu : s.unready name.lexeme = false) :
    Agree m (lookUp name (s.hops name.lexeme)) (lookUp name (s.hops name.lexeme))
      fun envs v => v.Good envs := by
  refine Agree.get ?_
  cases hd : s.hops name.lexeme with
  | some d =>
    obtain ⟨v, hv, hf⟩ := hs.getAt hm hd hu
    simp only [hv]
    exact .pure hm hf.good
  | none =>
    dsimp only
    cases hv : m.environments.get? Machine.globals name.lexeme with
    | none => exact raise_agrees hm _ _
    | some v =>
      obtain ⟨owner, _, ho⟩ := Option.bind_eq_some_iff.1 hv
      exact .pure hm (hm.bound owner _ v ho).good

theorem assignFrom_agrees (hm : m.Sound) (e : Nat) (name : Token) {v : Value}
    (hv : v.Fits m.environments name.lexeme) :
    Agree m (assignFrom e name v) (assignFrom e name v) fun _ _ => True := by
  refine Agree.get ?_
  cases m.environments.owner? name.lexeme e with
  | none => exact raise_agrees hm _ _
  | some owner => exact rebindIn_agrees hm owner hv

theorem assign_agrees (hm : m.Sound) (hs : m.StandsAt s) (name : Token) {v : Value}
    (hv : v.Fits m.environments name.lexeme) :
    Agree m (assign name (s.hops name.lexeme) v) (assign name (s.hops name.lexeme) v)
      fun _ _ => True := by
  cases hd : s.hops name.lexeme with
  | none => exact assignFrom_agrees hm Machine.globals name hv
  | some d =>
    obtain ⟨a, ha, _⟩ := hs.supports.finds _ d hd
    refine Agree.get ?_
    simp only [Environments.ancestor, ha]
    exact rebindIn_agrees hm a hv

theorem bindMethod_agrees (hm : m.Sound) {f : Closure} (hf : f.GoodMethod m.environments)
    {ref : Nat} {c : Class} (hr : (Value.object ref c).Good m.environments) :
    Agree m (bindMethod f (.object ref c)) (bindMethod f (.object ref c)) fun envs f' =>
      f'.Good envs ∧ f'.declaration = f.declaration := by
  obtain ⟨place, activation, raw, hw, hp, he⟩ := hf
  have hthis (x : String) (v : Value)
      (hv : Bindings.find? [("this", Value.object ref c)] x = some v) :
      v.Fits m.environments x := by
    obtain ⟨rfl, rfl⟩ := Bindings.eq_of_find?_singleton hv
    exact ⟨hr, fun _ => ⟨ref, c, rfl⟩, fun h => absurd h (by decide)⟩
  refine (newEnvironment_agrees hm he.exists_ hthis).bind fun e m₁ hm₁ hg₁ hq => ?_
  obtain ⟨hlt, hsize, hlink, hb⟩ := hq
  refine (nextId_agrees hm₁).bind fun id m₂ hm₂ hg₂ _ => .pure hm₂ ⟨⟨?_, fun _ => ?_⟩, rfl⟩
  · have hsup : m₁.environments.Supports e (place.push [("this", true)]) :=
      (he.mono hg₁.environments).push hp hsize hlink hlt fun x hx =>
        hb x (Bindings.isSome_find?_singleton _ hx)
    exact ⟨_, activation, raw,
      ⟨hw.declaration, hw.accepted, hw.regular, hw.activation, hw.lawful⟩,
      Surroundings.settled_push_singleton place "this", hsup.mono hg₂.environments⟩
  · exact hg₂.environments.bound _ _ (hb "this" rfl)

theorem inEnvironment_agrees {x y : Eval α} {e : Nat}
    (h : Agree { m with current := e } x y Q) :
    Agree m (inEnvironment e x) (inEnvironment e y) Q := by
  obtain ⟨he, hy⟩ := h
  unfold Agree inEnvironment
  rw [he]
  refine ⟨rfl, ?_⟩
  cases hm : y { m with current := e } with
  | ok a m' =>
    rw [hm] at hy
    obtain ⟨hs, hg, hq⟩ := hy
    exact ⟨⟨hs.globals, hs.bound, hs.fields⟩, ⟨hg.environments, rfl⟩, hq⟩
  | error f m' =>
    rw [hm] at hy
    obtain ⟨hs, hg, hf⟩ := hy
    exact ⟨⟨hs.globals, hs.bound, hs.fields⟩, ⟨hg.environments, rfl⟩, hf⟩

theorem inCall_agrees {x y : Eval α} (line : Nat)
    (h : Agree { m with callDepth := m.callDepth + 1 } x y Q) :
    Agree m (inCall line x) (inCall line y) Q := by
  obtain ⟨he, hy⟩ := h
  unfold Agree inCall
  rw [he]
  refine ⟨rfl, ?_⟩
  cases hm : y { m with callDepth := m.callDepth + 1 } with
  | ok a m' =>
    rw [hm] at hy
    obtain ⟨hs, hg, hq⟩ := hy
    exact ⟨⟨hs.globals, hs.bound, hs.fields⟩, ⟨hg.environments, hg.current⟩, hq⟩
  | error f m' =>
    rw [hm] at hy
    obtain ⟨hs, hg, hf⟩ := hy
    cases f with
    | exhausted => exact ⟨⟨hs.globals, hs.bound, hs.fields⟩, ⟨hg.environments, hg.current⟩, rfl⟩
    | runtime e => exact ⟨⟨hs.globals, hs.bound, hs.fields⟩, ⟨hg.environments, hg.current⟩, rfl⟩
    | outOfTurns => exact ⟨⟨hs.globals, hs.bound, hs.fields⟩, ⟨hg.environments, hg.current⟩, rfl⟩
    | fault f => cases hf

end Eval
end Lox

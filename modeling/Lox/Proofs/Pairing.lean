import Lox.Proofs.Spare

/-! Steps of a pair. Two machines that hold the same take the same step, and hold the same again.
The machine on the right may open a spare scope, or be traced, while the one on the left waits. -/

namespace Lox

theorem Layout.Matches.withEnvironments {place place' : Nat → Nat} {m m' : Machine}
    (h : Layout.Matches place m m') {envs envs' : Environments}
    (hg : Layout.Grows ⟨m.environments, m'.environments, place⟩ ⟨envs, envs', place'⟩)
    (hwithin : ∀ e < envs.frames.size, place' e < envs'.frames.size)
    (hapart : ∀ e < envs.frames.size, ∀ e' < envs.frames.size, place' e = place' e' → e = e')
    (hbound : ∀ e < envs.frames.size,
      (envs.bindings e).Same (Layout.Alike ⟨envs, envs', place'⟩) (envs'.bindings (place' e))) :
    Layout.Matches place' { m with environments := envs } { m' with environments := envs' } :=
  { h with
    exists_ := Nat.lt_of_lt_of_le h.exists_ hg.left.grows.size
    root := (hg.place _ h.exists_).trans h.root
    within := hwithin
    apart := hapart
    bound := hbound
    objects := fun ref => by
      have hobject := h.objects ref
      generalize m.objects[ref]? = b?, m'.objects[ref]? = c? at hobject ⊢
      cases hobject with
      | none => exact .none
      | some hb => exact .some (hb.mono fun _ _ hv => hv.mono hg) }

namespace Pair
open Eval
variable {t u : Pair} {α β γ : Type} {k : Spare} {v w : Value}

abbrev Runs (t : Pair) (x : Unit → Eval α) (y : Eval β) (Q : Pair → α → β → Prop) : Prop :=
  Parallel.Runs (P := pairs) t x y Q

abbrev Alike (t : Pair) : Value → Value → Prop := t.layout.Alike

/-- The two machines are in environments that correspond. -/
def Stands (t : Pair) (k : Spare) : Prop := t.layout.Lies k t.left.current t.right.current

theorem Stands.later (h : t.Stands k) (hu : t.Later u) : u.Stands k := by
  unfold Stands
  rw [hu.left, hu.right]
  exact h.mono hu.layout

theorem runs_step {p : Nat → Nat} {f : Machine → α × Machine} {g : Machine → β × Machine}
    {Q : Pair → α → β → Prop} (h : Layout.Matches p (f t.left).2 (g t.right).2)
    (hg : t.layout.Grows ⟨(f t.left).2.environments, (g t.right).2.environments, p⟩)
    (hl : (f t.left).2.current = t.left.current) (hr : (g t.right).2.current = t.right.current)
    (hQ : Q ⟨p, _, _, h⟩ (f t.left).1 (g t.right).1) :
    t.Runs (fun _ => modifyGet f) (modifyGet g) Q :=
  ⟨⟨p, _, _, h⟩, ⟨hg, hl, hr⟩, .inl ⟨_, _, hQ, rfl, fun _ _ => rfl⟩⟩

/-- A step that the machine on the right takes alone. -/
theorem runs_aside {x : Unit → Eval α} {g : Machine → γ × Machine} {y : γ → Eval β}
    {Q : Pair → α → β → Prop} (h : Layout.Matches t.place t.left (g t.right).2)
    (hg : t.right.environments.Stays (g t.right).2.environments)
    (hr : (g t.right).2.current = t.right.current)
    (hrest : t.Later ⟨t.place, t.left, _, h⟩ →
      Runs ⟨t.place, t.left, _, h⟩ x (y (g t.right).1) Q) :
    t.Runs x (modifyGet g >>= y) Q := by
  have hlater : t.Later ⟨t.place, t.left, _, h⟩ := ⟨⟨.refl _, hg, fun _ _ => rfl⟩, rfl, hr⟩
  obtain ⟨u, hu, hend⟩ := hrest hlater
  exact ⟨u, hlater.trans hu, hend⟩

theorem emit_runs (t : Pair) (e : Event) : t.Runs (fun _ => emit e) (emit e) fun _ _ _ => True := by
  refine runs_step { t.holds with output := ?_ } (.refl t.layout) rfl rfl trivial
  rw [Transcript.output_cons, Transcript.output_cons, t.holds.output]

/-- A trace is no output. -/
theorem traced_runs {x : Unit → Eval α} {y : Eval β} {Q : Pair → α → β → Prop} (line : Nat)
    (kind : String) (h : ∀ u, t.Later u → u.Runs x y Q) :
    t.Runs x (emit (.traced line kind) >>= fun _ => y) Q := by
  refine runs_aside { t.holds with output := ?_ } (.refl _) rfl fun hu => h _ hu
  rw [t.holds.output, Transcript.output_cons]
  exact String.append_empty.symm

theorem readClock_runs (t : Pair) : t.Runs (fun _ => readClock) readClock Alike :=
  runs_step { t.holds with clock := congrArg (· + Machine.tick) t.holds.clock } (.refl t.layout)
    rfl rfl t.holds.clock

theorem nextId_runs (t : Pair) : t.Runs (fun _ => nextId) nextId fun _ id id' => id = id' :=
  runs_step { t.holds with created := congrArg (· + 1) t.holds.created } (.refl t.layout) rfl rfl
    t.holds.created

theorem newInstance_runs (t : Pair) {c d : Class} (h : c.Rel (pairs.Method t) d) :
    t.Runs (fun _ => newInstance c) (newInstance d) Alike := by
  have hsize := t.holds.objects_size
  refine runs_step { t.holds with
    objects_size := by simp [hsize]
    objects := fun ref => ?_ } (.refl t.layout) rfl rfl ⟨hsize, h⟩
  rw [Array.getElem?_push, Array.getElem?_push, hsize]
  split
  · exact .some (Bindings.same_nil _)
  · exact t.holds.objects ref

theorem getField?_runs (t : Pair) (ref : Nat) (name : String) :
    t.Runs (fun _ => getField? ref name) (getField? ref name) fun u => Option.Rel (Alike u) := by
  refine Parallel.Runs.get (.pure ?_)
  show Option.Rel _ ((t.left.objects[ref]?).bind (·.find? name))
    ((t.right.objects[ref]?).bind (·.find? name))
  have h := t.holds.objects ref
  generalize t.left.objects[ref]? = b?, t.right.objects[ref]? = c? at h ⊢
  cases h with
  | none => exact .none
  | some h => exact h name

theorem setField_runs (t : Pair) (ref : Nat) (name : String) (h : Alike t v w) :
    t.Runs (fun _ => setField ref name v) (setField ref name w) fun _ _ _ => True := by
  refine runs_step { t.holds with
    objects_size := by simp [t.holds.objects_size]
    objects := fun ref' => ?_ } (.refl t.layout) rfl rfl trivial
  have hobject := t.holds.objects ref'
  rw [Array.getElem?_modify, Array.getElem?_modify]
  generalize t.left.objects[ref']? = b?, t.right.objects[ref']? = c? at hobject ⊢
  split
  · cases hobject with
    | none => exact .none
    | some hb => exact .some (hb.put name h)
  · exact hobject

theorem newEnvironment_runs {p q : Nat} (h : t.layout.Lies k p q) {b c : Bindings Value}
    (hb : b.Same (Alike t) c) :
    t.Runs (fun _ => newEnvironment p b) (newEnvironment q c) fun u e f =>
      u.layout.Lies k.inner e f := by
  have hM := t.holds
  let created : Nat := t.left.environments.frames.size
  let created' : Nat := t.right.environments.frames.size
  let envs := (t.left.environments.create (some p) b).2
  let envs' := (t.right.environments.create (some q) c).2
  let place : Nat → Nat := fun e => if e = created then created' else t.place e
  have hnew : place created = created' := if_pos rfl
  have hold {e : Nat} (he : e < created) : place e = t.place e := if_neg (Nat.ne_of_lt he)
  have hg : t.layout.Grows ⟨envs, envs', place⟩ :=
    ⟨Environments.stays_create .., Environments.stays_create .., fun e he => hold he⟩
  have hsize : envs.frames.size = created + 1 := Environments.size_create ..
  have hsize' : envs'.frames.size = created' + 1 := Environments.size_create ..
  have hcases {e : Nat} (he : e < envs.frames.size) : e = created ∨ e < created := by omega
  -- What is created last on the right is not yet the place of anything.
  have hne {e : Nat} (he : e < created) : t.place e ≠ created' := Nat.ne_of_lt (hM.within e he)
  refine runs_step (p := place) (hM.withEnvironments hg (fun e he => ?_) (fun e he e' he' => ?_)
    fun e he => ?_) hg rfl rfl ((h.mono hg).inner ?_ ?_ h.left ?_ ?_ h.right hnew)
  · rcases hcases he with rfl | he
    · rw [hnew, hsize']
      exact Nat.lt_succ_self _
    · rw [hold he, hsize']
      exact Nat.lt_succ_of_lt (hM.within e he)
  · rcases hcases he with rfl | he <;> rcases hcases he' with rfl | he'
    · exact fun _ => rfl
    · rw [hnew, hold he']
      exact fun h => absurd h.symm (hne he')
    · rw [hnew, hold he]
      exact fun h => absurd h (hne he)
    · rw [hold he, hold he']
      exact hM.apart e he e' he'
  · rw [Environments.bindings_create, Environments.bindings_create]
    rcases hcases he with rfl | he
    · rw [if_pos rfl, if_pos hnew]
      exact hb.mono fun _ _ hv => hv.mono hg
    · rw [if_neg (Nat.ne_of_lt he), if_neg (hold he ▸ hne he), hold he]
      exact (hM.bound e he).mono fun _ _ hv => hv.mono hg
  · exact hsize ▸ Nat.lt_succ_self created
  · exact (Environments.link?_create ..).trans (if_pos rfl)
  · exact hsize' ▸ Nat.lt_succ_self created'
  · exact (Environments.link?_create ..).trans (if_pos rfl)

theorem spareEnvironment_runs {e q : Nat} (h : t.layout.Lies none e q) {x : Unit → Eval α}
    {y : Nat → Eval β} {Q : Pair → α → β → Prop}
    (hrest : ∀ u f, t.Later u → u.layout.Lies (some 0) e f → u.Runs x (y f) Q) :
    t.Runs x (newEnvironment q [] >>= y) Q := by
  have hM := t.holds
  let envs := (t.right.environments.create (some q) []).2
  have hstays : t.right.environments.Stays envs := Environments.stays_create ..
  have hsize : envs.frames.size = t.right.environments.frames.size + 1 :=
    Environments.size_create ..
  have hg : t.layout.Grows ⟨t.left.environments, envs, t.place⟩ :=
    ⟨.refl _, hstays, fun _ _ => rfl⟩
  refine runs_aside (hM.withEnvironments hg (fun e he => ?_) hM.apart fun e he => ?_) hstays rfl
    fun hu => hrest _ _ hu ((h.mono hg).spare ?_ ?_ h.right)
  · exact Nat.lt_of_lt_of_le (hM.within e he) hstays.grows.size
  · rw [Environments.bindings_create, if_neg (Nat.ne_of_lt (hM.within e he))]
    exact (hM.bound e he).mono fun _ _ hv => hv.mono hg
  · exact hsize ▸ Nat.lt_succ_self _
  · exact (Environments.link?_create ..).trans (if_pos rfl)

theorem defineIn_runs {e : Nat} (he : e < t.left.environments.frames.size) (x : String)
    (h : Alike t v w) :
    t.Runs (fun _ => defineIn e x v) (defineIn (t.place e) x w) fun u _ _ =>
      (u.left.environments.find? e x).isSome := by
  have hM := t.holds
  let envs := t.left.environments.define e x v
  let envs' := t.right.environments.define (t.place e) x w
  have hsize : envs.frames.size = t.left.environments.frames.size := Environments.size_define ..
  have hg : t.layout.Grows ⟨envs, envs', t.place⟩ :=
    ⟨Environments.stays_define .., Environments.stays_define .., fun _ _ => rfl⟩
  refine runs_step (p := t.place) (hM.withEnvironments hg (fun e' he' => ?_)
    (fun e₁ he₁ e₂ he₂ => ?_) fun e' he' => ?_) hg rfl rfl ?_
  · exact Nat.lt_of_lt_of_le (hM.within e' (hsize ▸ he')) hg.right.grows.size
  · exact hM.apart e₁ (hsize ▸ he₁) e₂ (hsize ▸ he₂)
  · have he' : e' < t.left.environments.frames.size := hsize ▸ he'
    have hbound := (hM.bound e' he').mono fun _ _ hv => hv.mono hg
    rw [Environments.bindings_define, Environments.bindings_define]
    by_cases hee : e = e'
    · subst hee
      rw [if_pos ⟨rfl, he⟩, if_pos ⟨rfl, hM.within e he⟩]
      exact hbound.put x (h.mono hg)
    · rw [if_neg fun hc => hee hc.1, if_neg fun hc => hee (hM.apart e he e' he' hc.1)]
      exact hbound
  · show (envs.find? e x).isSome
    rw [Environments.find?_define he, if_pos ⟨rfl, rfl⟩]
    rfl

theorem define_runs (ht : t.Stands k) (hk : k ≠ some 0) (x : String) (h : Alike t v w) :
    t.Runs (fun _ => define x v) (define x w) fun u _ _ =>
      (u.left.environments.find? u.left.current x).isSome := by
  have hdefine := defineIn_runs ht.left x h
  rw [← show t.right.current = t.place t.left.current from ht.place_eq hk] at hdefine
  exact hdefine.mono fun u _ _ hu hbound => hu.left ▸ hbound

theorem fault_runs (f g : Fault) {Q : Pair → α → β → Prop} :
    t.Runs (fun _ => throw (.fault f)) (throw (.fault g)) Q :=
  ⟨t, pairs.later_refl t, .inr ⟨_, _, .inr ⟨rfl, rfl⟩, rfl, fun _ _ => rfl⟩⟩

/-- What is bound so many environments out, past the spare one on the right. -/
theorem found_runs {e f : Nat} (h : t.layout.Lies k e f) (d : Nat) (name : String)
    {x : Value → Eval α} {y : Value → Eval β} {Q : Pair → α → β → Prop}
    (hrest : ∀ v w, Alike t v w → t.Runs (fun _ => x v) (y w) Q) :
    t.Runs (fun _ => ofFault (t.left.environments.getAt e d name) >>= x)
      (ofFault (t.right.environments.getAt f (k.past d) name) >>= y) Q := by
  have hright : t.right.environments.ancestor? f (k.past d) =
    (t.left.environments.ancestor? e d).map t.place := h.ancestor d
  unfold Environments.getAt Environments.ancestor
  rw [hright]
  cases ha : t.left.environments.ancestor? e d with
  | none => exact fault_runs _ _
  | some a =>
    have hlt : a < t.left.environments.frames.size :=
      Nat.lt_of_le_of_lt (Environments.le_of_ancestor? ha) h.left
    have hbound := t.holds.bound a hlt name
    dsimp only [Option.map_some]
    unfold Environments.find?
    generalize (t.left.environments.bindings a).find? name = v?,
      (t.right.environments.bindings (t.place a)).find? name = w? at hbound ⊢
    cases hbound with
    | none => exact fault_runs _ _
    | some hv => exact hrest _ _ hv

theorem getAt_runs {e f : Nat} (h : t.layout.Lies k e f) (d : Nat) (name : String) :
    t.Runs (fun _ => ofFault (t.left.environments.getAt e d name))
      (ofFault (t.right.environments.getAt f (k.past d) name)) Alike := by
  have hfound := found_runs (x := pure) (y := pure) (Q := Alike) h d name fun v w hv => .pure hv
  simp only [bind_pure] at hfound
  exact hfound

theorem find?_globals (t : Pair) (x : String) :
    Option.Rel (Alike t) (t.left.environments.find? Machine.globals x)
      (t.right.environments.find? Machine.globals x) := by
  have h := t.holds.bound _ t.holds.exists_ x
  rwa [t.holds.root] at h

theorem lookUp_runs (ht : t.Stands k) (name : Token) (target : Hops) :
    t.Runs (fun _ => lookUp name target) (lookUp name (target.map k.past)) Alike := by
  cases target with
  | some d => exact Parallel.Runs.get (P := pairs) (getAt_runs ht d name.lexeme)
  | none =>
    have h := find?_globals t name.lexeme
    unfold Machine.globals at h
    rw [← Environments.get?_zero, ← Environments.get?_zero] at h
    exact Parallel.lookUp_runs (P := pairs) h

/-- An assignment by name, to a global or to a name that the environment itself binds. -/
theorem assignFrom_runs {e : Nat} (he : e < t.left.environments.frames.size) (name : Token)
    (hfound : e = Machine.globals ∨ (t.left.environments.find? e name.lexeme).isSome)
    (h : Alike t v w) :
    t.Runs (fun _ => assignFrom e name v) (assignFrom (t.place e) name w) fun _ _ _ => True := by
  have hbound := t.holds.bound e he name.lexeme
  have hsome : (t.left.environments.find? e name.lexeme).isSome =
      (t.right.environments.find? (t.place e) name.lexeme).isSome := by
    unfold Environments.find?
    generalize (t.left.environments.bindings e).find? name.lexeme = v?,
      (t.right.environments.bindings (t.place e)).find? name.lexeme = w? at hbound ⊢
    cases hbound <;> rfl
  unfold assignFrom
  refine Parallel.Runs.get (P := pairs) ?_
  by_cases hs : (t.left.environments.find? e name.lexeme).isSome
  · have hleft : (pairs.left t).environments.owner? name.lexeme e = some e :=
      Environments.owner?_self hs
    have hright : (pairs.right t).environments.owner? name.lexeme (t.place e) =
        some (t.place e) := Environments.owner?_self (hsome ▸ hs)
    rw [hleft, hright]
    exact (defineIn_runs he name.lexeme h).mono fun _ _ _ _ _ => trivial
  · obtain rfl : e = Machine.globals := hfound.resolve_right hs
    have hleft : (pairs.left t).environments.owner? name.lexeme Machine.globals = none :=
      (Environments.owner?_zero ..).trans (if_neg hs)
    have hright : (pairs.right t).environments.owner? name.lexeme (t.place Machine.globals) =
        none := by
      rw [t.holds.root]
      rw [t.holds.root] at hsome
      exact (Environments.owner?_zero ..).trans (if_neg (hsome ▸ hs))
    rw [hleft, hright]
    exact .throw _

theorem assign_runs (ht : t.Stands k) (name : Token) (target : Hops) (h : Alike t v w) :
    t.Runs (fun _ => assign name target v) (assign name (target.map k.past) w)
      fun _ _ _ => True := by
  cases target with
  | none =>
    have hassign := assignFrom_runs t.holds.exists_ name (.inl rfl) h
    rwa [t.holds.root] at hassign
  | some d =>
    have hright : t.right.environments.ancestor? t.right.current (k.past d) =
      (t.left.environments.ancestor? t.left.current d).map t.place := ht.ancestor d
    refine Parallel.Runs.get (P := pairs) ?_
    show t.Runs (fun _ => ofFault (t.left.environments.ancestor t.left.current d) >>= fun e =>
        defineIn e name.lexeme v)
      (ofFault (t.right.environments.ancestor t.right.current (k.past d)) >>= fun e =>
        defineIn e name.lexeme w) _
    unfold Environments.ancestor
    rw [hright]
    cases ha : t.left.environments.ancestor? t.left.current d with
    | none => exact fault_runs _ _
    | some a =>
      have hlt : a < t.left.environments.frames.size :=
        Nat.lt_of_le_of_lt (Environments.le_of_ancestor? ha) ht.left
      exact (defineIn_runs hlt name.lexeme h).mono fun _ _ _ _ _ => trivial

theorem bindMethod_runs (t : Pair) {f g : Closure} (hf : t.layout.SameCode Layout.inMethod f g)
    (hv : Alike t v w) :
    t.Runs (fun _ => bindMethod f v) (bindMethod g w) fun u => u.layout.SameCode id := by
  obtain ⟨k, s, s', activation, raw, hs, hl, hr, hdf, hdg⟩ := hf.declaration
  have hthis : Bindings.Same (Alike t) [("this", v)] [("this", w)] :=
    (Bindings.same_nil _).put "this" hv
  refine (newEnvironment_runs hl hthis).bind fun u e f hu he => ?_
  refine (nextId_runs u).bind fun u' id _ hu' hid => .pure ?_
  have hlies := he.mono hu'.layout
  exact ⟨hid, hf.isInitializer, hlies.place_eq k.inner_ne_zero, k.inner, _, _, activation, raw,
    hs.push _, hlies, hr, hdf, hdg⟩

/-- The same machines in other places. -/
def moved (t : Pair) (e f callDepth : Nat) : Pair where
  place := t.place
  left := { t.left with current := e, callDepth }
  right := { t.right with current := f, callDepth }
  holds := { t.holds with callDepth := rfl }

theorem inEnvironment_runs (e f : Nat) {x : Unit → Eval α} {y : Eval β} {Q : Pair → α → β → Prop}
    (hQ : ∀ (u : Pair) a b e f callDepth, Q u a b → Q (u.moved e f callDepth) a b)
    (h : (t.moved e f t.left.callDepth).Runs x y Q) :
    t.Runs (fun told => inEnvironment e (x told)) (inEnvironment f y) Q := by
  have hright : (t.moved e f t.left.callDepth).right = { t.right with current := f } := by
    show { t.right with current := f, callDepth := t.left.callDepth } = _
    rw [t.holds.callDepth]
  simp only [inEnvironment_eq]
  refine Parallel.Runs.within h rfl hright (fun _ _ h => h) fun u hu => ?_
  refine ⟨u.moved t.left.current t.right.current u.left.callDepth, ⟨hu.layout, rfl, rfl⟩, rfl, ?_,
    fun a b => hQ u a b _ _ _, fun _ h => h⟩
  show { u.right with current := t.right.current, callDepth := u.left.callDepth } =
    { u.right with current := t.right.current }
  rw [u.holds.callDepth]

/-- The machine on the right goes into an environment while the one on the left stays. -/
theorem inSpare_runs (f : Nat) {x : Unit → Eval α} {y : Eval β} {Q : Pair → α → β → Prop}
    (hQ : ∀ (u : Pair) a b e f callDepth, Q u a b → Q (u.moved e f callDepth) a b)
    (h : (t.moved t.left.current f t.left.callDepth).Runs x y Q) :
    t.Runs x (inEnvironment f y) Q := by
  have hleft (act : Eval α) : within (fun m => m) (fun _ m => m) (fun f => f) act = act := by
    funext m
    unfold within
    cases act m <;> rfl
  have hright : (t.moved t.left.current f t.left.callDepth).right =
      { t.right with current := f } := by
    show { t.right with current := f, callDepth := t.left.callDepth } = _
    rw [t.holds.callDepth]
  simp only [inEnvironment_eq]
  refine Parallel.Runs.congr
    (z := fun told => within (fun m => m) (fun _ m => m) (fun f => f) (x told)) ?_
    fun told _ => congrFun (hleft (x told)).symm _
  refine Parallel.Runs.within h rfl hright (fun _ _ h => h) fun u hu => ?_
  refine ⟨u.moved u.left.current t.right.current u.left.callDepth, ⟨hu.layout, hu.left, rfl⟩, rfl,
    ?_, fun a b => hQ u a b _ _ _, fun _ h => h⟩
  show { u.right with current := t.right.current, callDepth := u.left.callDepth } =
    { u.right with current := t.right.current }
  rw [u.holds.callDepth]

theorem inCall_runs (t : Pair) (line : Nat) {x : Unit → Eval Value} {y : Eval Value}
    (h : ∀ u, t.Later u → u.Runs x y Alike) :
    t.Runs (fun told => inCall line (x told)) (inCall line y) Alike := by
  let called : Pair := t.moved t.left.current t.right.current (t.left.callDepth + 1)
  have hlater : t.Later called := ⟨.refl _, rfl, rfl⟩
  have hright : called.right = { t.right with callDepth := t.right.callDepth + 1 } := by
    show { t.right with callDepth := t.left.callDepth + 1 } = _
    rw [t.holds.callDepth]
  simp only [inCall_eq]
  refine Parallel.Runs.within (h _ hlater) rfl hright (fun f g h => ?_) fun u hu => ?_
  · rcases h with rfl | ⟨hf, hg⟩
    · exact .inl rfl
    · cases f <;> cases hf
      cases g <;> cases hg
      exact .inr ⟨rfl, rfl⟩
  · refine ⟨u.moved u.left.current u.right.current (u.left.callDepth - 1),
      ⟨hu.layout, hu.left, hu.right⟩, rfl, ?_, fun _ _ h => h, fun _ h => h⟩
    show { u.right with callDepth := u.left.callDepth - 1 } =
      { u.right with callDepth := u.right.callDepth - 1 }
    rw [u.holds.callDepth]

theorem laws : pairs.Laws fun _ => bindMethod where
  callDepth t := t.holds.callDepth
  emit := emit_runs
  readClock := readClock_runs
  newInstance t _ _ h := newInstance_runs t h
  getField? := getField?_runs
  setField t ref name _ _ h := setField_runs t ref name h
  bindMethod t _ _ _ _ hf hv := bindMethod_runs t hf hv
  inCall t line _ _ h := inCall_runs t line h

end Pair
end Lox

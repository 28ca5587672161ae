import Lox.Proofs.Lockstep
import Lox.Proofs.Splitting

/-! Room for calls. Two runs that differ in how many calls may be in progress do the same until the
one finds no room for a call; the other then goes on from there. So a run that never lacks room is
not changed by more of it, and one that does has written the beginning of what it would have
written. -/

namespace Lox

section
variable {α β : Type} {x y : Eval α} {m m' : Machine}

/-- The machine that a computation leaves, whether it fails or not. -/
def Eval.leaves (x : Eval α) (m : Machine) : Machine :=
  match x m with
  | .ok _ m' | .error _ m' => m'

theorem Eval.leaves_ok {a : α} (h : x m = .ok a m') : x.leaves m = m' := by
  rw [leaves, h]

theorem Eval.leaves_error {f : Failure} (h : x m = .error f m') : x.leaves m = m' := by
  rw [leaves, h]

theorem Eval.leaves_bind_ok {a : α} (h : x m = .ok a m') (f : α → Eval β) :
    Eval.leaves (x >>= f) m = (f a).leaves m' := by
  rw [leaves, bind_ok h, leaves]

theorem Eval.events_leaves_inEnvironment (e : Nat) (x : Eval α) (m : Machine) :
    ((Eval.inEnvironment e x).leaves m).events = (x.leaves { m with current := e }).events := by
  unfold leaves Eval.inEnvironment
  cases x { m with current := e } <;> rfl

theorem Eval.events_leaves_inCall (line : Nat) (x : Eval α) (m : Machine) :
    ((Eval.inCall line x).leaves m).events =
      (x.leaves { m with callDepth := m.callDepth + 1 }).events := by
  unfold leaves Eval.inCall
  cases x { m with callDepth := m.callDepth + 1 } with
  | ok a m' => rfl
  | error f m' => cases f <;> rfl

theorem Machine.events_run (x : Eval Unit) (m : Machine) :
    (m.run x).2.events = (x.leaves m).events := by
  unfold run Eval.leaves
  cases x m <;> rfl

/-- The computation stops at a call that finds no room. -/
def Overruns (x : Eval α) (m m' : Machine) : Prop :=
  ∃ line, x m = .error (.runtime ⟨.tooManyCalls, line⟩) m'

/-- On `m`, `y` takes back nothing of what has been written, and does what `x` does. Only if `x`
stops at a call does `y` perhaps go on, and then it has written at least as much. -/
structure Surpasses (x y : Eval α) (m : Machine) : Prop where
  grows : m.events <:+ (y.leaves m).events
  follows : y m = x m ∨ ∃ m', Overruns x m m' ∧ m'.events <:+ (y.leaves m).events

theorem Surpasses.refl (h : m.events <:+ (x.leaves m).events) : Surpasses x x m := ⟨h, .inl rfl⟩

theorem Surpasses.get {f g : Machine → Eval α} (h : Surpasses (f m) (g m) m) :
    Surpasses (get >>= f) (get >>= g) m := ⟨h.grows, h.follows⟩

theorem Surpasses.bind {f g : α → Eval β} (h : Surpasses x y m)
    (hf : ∀ a m', Surpasses (f a) (g a) m') : Surpasses (x >>= f) (y >>= g) m := by
  have hrest : (y.leaves m).events <:+ (Eval.leaves (y >>= g) m).events := by
    cases hy : y m with
    | error failure m' =>
      simp only [Eval.leaves_error hy, Eval.leaves_error (Eval.bind_error hy g), List.suffix_refl]
    | ok a m' =>
      rw [Eval.leaves_ok hy, Eval.leaves_bind_ok hy]
      exact (hf a m').grows
  refine ⟨h.grows.trans hrest, ?_⟩
  rcases h.follows with hsame | ⟨m', ⟨line, hstops⟩, hwritten⟩
  · cases hx : x m with
    | error failure m' => exact .inl ((Eval.bind_error (hsame.trans hx) g).trans
        (Eval.bind_error hx f).symm)
    | ok a m' =>
      have hy := hsame.trans hx
      unfold Overruns
      rw [Eval.bind_ok hx, Eval.bind_ok hy, Eval.leaves_bind_ok hy]
      exact (hf a m').follows
  · exact .inr ⟨m', ⟨line, Eval.bind_error hstops f⟩, hwritten.trans hrest⟩

theorem Surpasses.inEnvironment (e : Nat) (h : Surpasses x y { m with current := e }) :
    Surpasses (Eval.inEnvironment e x) (Eval.inEnvironment e y) m := by
  have hleaves := Eval.events_leaves_inEnvironment e y m
  refine ⟨hleaves ▸ h.grows, ?_⟩
  rw [hleaves]
  rcases h.follows with hsame | ⟨m', ⟨line, hstops⟩, hwritten⟩
  · left
    unfold Eval.inEnvironment
    rw [hsame]
  · refine .inr ⟨{ m' with current := m.current }, ⟨line, ?_⟩, hwritten⟩
    unfold Eval.inEnvironment
    rw [hstops]

theorem Surpasses.inCall (line : Nat) (h : Surpasses x y { m with callDepth := m.callDepth + 1 }) :
    Surpasses (Eval.inCall line x) (Eval.inCall line y) m := by
  have hleaves := Eval.events_leaves_inCall line y m
  refine ⟨hleaves ▸ h.grows, ?_⟩
  rw [hleaves]
  rcases h.follows with hsame | ⟨m', ⟨place, hstops⟩, hwritten⟩
  · left
    unfold Eval.inCall
    rw [hsame]
  · refine .inr ⟨{ m' with callDepth := m'.callDepth - 1 }, ⟨place, ?_⟩, hwritten⟩
    unfold Eval.inCall
    rw [hstops]

end

def headroom : Congruence where
  Holds x y := ∀ m, Surpasses x y m
  pure _ _ := .refl (List.suffix_refl _)
  bind hx hf m := (hx m).bind hf
  throw _ _ := .refl (List.suffix_refl _)
  inspect _ _ h m := .get (h m m)
  store hf m := .refl (by
    show m.events <:+ _
    rw [← hf.keeps m]
    exact List.suffix_refl _)
  emit e m := .refl (List.suffix_cons e m.events)
  inEnvironment e h m := (h { m with current := e }).inEnvironment e
  inCall line h m := (h { m with callDepth := m.callDepth + 1 }).inCall line

namespace Eval
variable {settings : Settings} {few many : Nat}

/-- A call that finds room among fewer calls finds it among more. -/
theorem call_surpasses (h : few ≤ many) {enter enter' : Closure → List Value → Eval Value}
    (hen : ∀ f vs, headroom.Holds (enter f vs) (enter' f vs)) (callee : Value)
    (arguments : List Value) (line : Nat) :
    headroom.Holds (call { settings with calls := few } enter callee arguments line)
      (call { settings with calls := many } enter' callee arguments line) := by
  unfold call
  cases callee.arity? with
  | none => exact headroom.raise _ _
  | some expected =>
    dsimp only
    split
    · exact headroom.raise _ _
    · intro m
      have hcall := headroom.inCall line (headroom.callValue hen callee arguments) m
      apply Surpasses.get
      by_cases hfew : few ≤ m.callDepth
      · rw [if_pos hfew]
        split
        · exact headroom.raise _ _ m
        · -- The one run stops at this call, the other goes into it.
          exact ⟨hcall.grows, .inr ⟨m, ⟨_, rfl⟩, hcall.grows⟩⟩
      · have hmany : ¬ many ≤ m.callDepth := by omega
        rw [if_neg hfew, if_neg hmany]
        exact hcall

theorem evaluate_execute_surpass (h : few ≤ many) (nesting : Nat) :
    (∀ e, headroom.Holds (evaluate { settings with calls := few } nesting e)
      (evaluate { settings with calls := many } nesting e)) ∧
    ∀ s, headroom.Holds (execute { settings with calls := few } nesting s)
      (execute { settings with calls := many } nesting s) := by
  apply headroom.evaluate_execute
  · rfl
  · rfl
  · exact fun _ _ _ => headroom.emit _
  · exact fun _ _ => call_surpasses h

theorem executeProgram_surpasses (settings : Settings) (h : few ≤ many)
    (program : List BoundStmt) :
    headroom.Holds (executeProgram { settings with calls := few } program)
      (executeProgram { settings with calls := many } program) := by
  apply headroom.toPassage.executeProgram
  · rfl
  · exact (evaluate_execute_surpass h settings.nesting).2

end Eval

namespace Session
variable {settings : Settings} {few many : Nat}

/-- A runtime error with the message for too many calls has been reported. -/
def ReportsOverflow (s : Session) : Prop :=
  ∃ line, Diagnostics.runtimeText "Stack overflow." line ∈ s.diagnostics.messages

theorem output_run (s : Session) (x : Eval Unit) :
    (s.run x).machine.events.output = (x.leaves s.machine).events.output := by
  rw [run_def, output_conclude, Machine.events_run]

theorem run_congr {s : Session} {x y : Eval Unit} (h : y s.machine = x s.machine) :
    s.run y = s.run x := by
  unfold run Machine.run
  rw [h]

theorem reportsOverflow_run {s : Session} {x : Eval Unit} {m : Machine}
    (h : Overruns x s.machine m) : (s.run x).ReportsOverflow := by
  obtain ⟨line, hstops⟩ := h
  refine ⟨line, ?_⟩
  rw [Diagnostics.messages, run_def, log_conclude]
  unfold Machine.run
  rw [hstops, List.mem_reverse]
  exact List.mem_append_left _ (List.mem_singleton_self _)

/-- With more room for calls, a program does the same unless it found no room before. Then it has
reported that, and what it wrote is the beginning of what it writes now. -/
theorem interpret_surpasses (h : few ≤ many) (s : Session) (program : List BoundStmt) :
    s.interpret { settings with calls := many } program =
        s.interpret { settings with calls := few } program ∨
      (s.interpret { settings with calls := few } program).ReportsOverflow ∧
        ∃ rest, (s.interpret { settings with calls := many } program).machine.events.output =
          (s.interpret { settings with calls := few } program).machine.events.output ++ rest := by
  unfold interpret
  rcases (Eval.executeProgram_surpasses settings h program s.machine).follows with
    hsame | ⟨m, hstops, newer, hwritten⟩
  · exact .inl (run_congr hsame)
  · refine .inr ⟨reportsOverflow_run hstops, Transcript.output newer, ?_⟩
    obtain ⟨line, hstops⟩ := hstops
    rw [output_run, output_run, Eval.leaves_error hstops, ← hwritten, Transcript.output_append]

/-- A text whose run lacks no room for calls does the same with more of it. One whose run does
writes, with more room, all that it wrote and perhaps more. -/
theorem runProgram_headroom (clock : Float) (settings : Settings) {few many : Nat}
    (h : few ≤ many) (source : String) :
    let low := (initial clock).runProgram { settings with calls := few } source
    let high := (initial clock).runProgram { settings with calls := many } source
    (¬ low.ReportsOverflow → high = low) ∧
      (low.ReportsOverflow →
        ∃ rest, high.machine.events.output = low.machine.events.output ++ rest) := by
  intro low high
  suffices hboth : high = low ∨ low.ReportsOverflow ∧
      ∃ rest, high.machine.events.output = low.machine.events.output ++ rest by
    rcases hboth with hsame | ⟨hreports, hmore⟩
    · exact ⟨fun _ => hsame, fun _ => ⟨"", by rw [hsame, String.append_empty]⟩⟩
    · exact ⟨fun hquiet => absurd hreports hquiet, fun _ => hmore⟩
  unfold low high runProgram
  dsimp only
  split
  · exact .inl rfl
  · unfold resolveAndRun
    dsimp only
    split
    · exact .inl rfl
    · exact interpret_surpasses h _ _

/-- Its calls lie two deep. -/
def nested : String :=
  "fun inner() \x7b print \"inner\"; \x7d\n" ++
  "fun outer() \x7b print \"outer\"; inner(); \x7d\nouter();"

theorem nested_headroom :
    let run (calls : Nat) := (initial 0).runProgram { calls } nested
    (1 ≤ 2 ∧ (run 1).ReportsOverflow ∧ (run 1).machine.events.output = "outer\n" ∧
      ∃ rest, (run 2).machine.events.output = (run 1).machine.events.output ++ rest) ∧
      2 ≤ 1000 ∧ ¬ (run 2).ReportsOverflow ∧ run 1000 = run 2 := by
  intro run
  have hlow : (run 1).diagnostics.messages =
      [Diagnostics.runtimeText "Stack overflow." (some 2)] := by decide +kernel
  have hhigh : (run 2).diagnostics.messages = [] := by decide +kernel
  have hreports : (run 1).ReportsOverflow := ⟨some 2, hlow ▸ List.mem_singleton_self _⟩
  have hquiet : ¬ (run 2).ReportsOverflow := fun ⟨_, hreported⟩ => by
    rw [hhigh] at hreported
    cases hreported
  exact ⟨⟨by decide, hreports, by decide +kernel,
      (runProgram_headroom 0 {} (by decide) nested).2 hreports⟩,
    by decide, hquiet, (runProgram_headroom 0 {} (by decide) nested).1 hquiet⟩

end Session
end Lox

import Lox.Proofs.Lockstep
import Lox.Proofs.Refusal
import Lox.Proofs.Splitting

/-! Omission. A run never looks at what has been written before it. So an input with a static error,
which only adds to that, could as well have been left out. -/

namespace Lox

namespace Machine

def upon (m : Machine) (older : Transcript) : Machine := { m with events := m.events ++ older }

end Machine

section
variable {α : Type} (older : Transcript)

/-- An ending, had something been written before. -/
def endingUpon : EStateM.Result Failure Machine α → EStateM.Result Failure Machine α
  | .ok a m => .ok a (m.upon older)
  | .error f m => .error f (m.upon older)

/-- What has been written before is kept, and makes no difference. -/
def Unread (x y : Eval α) : Prop := ∀ m : Machine, y (m.upon older) = endingUpon older (x m)

variable {older}

theorem Unread.bind {β : Type} {x y : Eval α} {f g : α → Eval β} (h : Unread older x y)
    (hf : ∀ a, Unread older (f a) (g a)) : Unread older (x >>= f) (y >>= g) := by
  intro m
  show EStateM.bind y g (m.upon older) = endingUpon older (EStateM.bind x f m)
  unfold EStateM.bind
  rw [h m]
  cases x m with
  | ok a m' => exact hf a m'
  | error e m' => rfl

theorem Unread.inspect {f g : Machine → Eval α} (hg : ∀ m events, g { m with events } = g m)
    (h : ∀ m, Unread older (f m) (g m)) : Unread older (get >>= f) (get >>= g) := by
  intro m
  show g { m with events := m.events ++ older } (m.upon older) = endingUpon older (f m m)
  rw [hg]
  exact h m m

theorem Unread.store {f : Machine → α × Machine} (h : Machine.Stores f) :
    Unread older (modifyGet f) (modifyGet f) := by
  intro m
  have hf : f (m.upon older) = ((f m).1, (f m).2.upon older) := by
    refine (h.events m (m.events ++ older)).trans ?_
    rw [Machine.upon, h.keeps m]
  show EStateM.Result.ok (f (m.upon older)).1 (f (m.upon older)).2 = _
  rw [hf]
  rfl

theorem Unread.inEnvironment {x y : Eval α} (e : Nat) (h : Unread older x y) :
    Unread older (Eval.inEnvironment e x) (Eval.inEnvironment e y) := by
  intro m
  have h : y { m.upon older with current := e } = _ := h { m with current := e }
  unfold Eval.inEnvironment
  rw [h]
  cases x { m with current := e } <;> rfl

theorem Unread.inCall {x y : Eval α} (line : Nat) (h : Unread older x y) :
    Unread older (Eval.inCall line x) (Eval.inCall line y) := by
  intro m
  have h : y { m.upon older with callDepth := m.callDepth + 1 } = _ :=
    h { m with callDepth := m.callDepth + 1 }
  unfold Eval.inCall
  rw [show (m.upon older).callDepth = m.callDepth from rfl, h]
  cases x { m with callDepth := m.callDepth + 1 } with
  | ok a m' => rfl
  | error f m' => cases f <;> rfl

variable (older) in
def unread : Congruence where
  Holds := Unread older
  pure _ _ := rfl
  bind := Unread.bind
  throw _ _ := rfl
  inspect _ hg h := Unread.inspect hg h
  store := Unread.store
  emit _ _ := rfl
  inEnvironment := Unread.inEnvironment
  inCall := Unread.inCall

end

namespace Session
variable {s t : Session}

/-- Nothing has been written yet. -/
def fresh (s : Session) : Session :=
  { s with
    machine := { s.machine with events := [] }
    diagnostics := { s.diagnostics with log := [] } }

/-- As if `s` had gone on from what `t` has written. -/
def upon (s t : Session) : Session :=
  { s with
    machine := s.machine.upon t.machine.events
    diagnostics := { s.diagnostics with log := s.diagnostics.log ++ t.diagnostics.log } }

/-- With no more than what has been written since. -/
def since (s t : Session) : Session :=
  { s with
    machine := { s.machine with
      events := s.machine.events.take (s.machine.events.length - t.machine.events.length) }
    diagnostics := { s.diagnostics with
      log := s.diagnostics.log.take (s.diagnostics.log.length - t.diagnostics.log.length) } }

theorem fresh_upon : s.fresh.upon s = s := rfl

theorem since_upon : (s.upon t).since t = s := by
  simp [since, upon, Machine.upon]

theorem report_upon (errors : List StaticError) :
    (s.upon t).report errors = (s.report errors).upon t := by
  induction errors generalizing s with
  | nil => rfl
  | cons e errors ih => exact ih (s := s.reportError e)

theorem conclude_upon (f : Option Failure) : (s.upon t).conclude f = (s.conclude f).upon t := by
  rcases f with _ | _ | _ <;> rfl

theorem run_upon (settings : Settings) (program : List BoundStmt) :
    (s.upon t).run (Eval.executeProgram settings program) =
      (s.run (Eval.executeProgram settings program)).upon t := by
  have h : Eval.executeProgram settings program (s.upon t).machine =
      endingUpon t.machine.events (Eval.executeProgram settings program s.machine) :=
    (unread t.machine.events).executeProgram settings program s.machine
  rw [run_def, run_def, ← conclude_upon]
  unfold Machine.run
  rw [h]
  cases Eval.executeProgram settings program s.machine <;> rfl

theorem resolve_upon (program : List RawStmt) :
    (s.upon t).resolve program = ((s.resolve program).1.upon t, (s.resolve program).2) := by
  unfold resolve
  dsimp only
  rw [report_upon]
  rfl

namespace Input
variable (i : Input)

theorem read_upon : i.read (s.upon t) = ((i.read s).1.upon t, (i.read s).2) := by
  have hfound : i.found (s.upon t) = (i.found s).upon t := by
    unfold found
    split <;> rfl
  unfold read
  rw [hfound]
  dsimp only
  split
  · exact resolve_upon _
  · rw [report_upon]
    generalize (i.found s).report _ = s'
    show (if s'.diagnostics.hadError then (s'.upon t, none) else (s'.upon t).resolve _) = _
    split
    · rfl
    · exact resolve_upon _

theorem run_upon : i.run (s.upon t) = (i.run s).upon t := by
  rw [run_eq, run_eq]
  unfold runBy
  rw [read_upon]
  cases i.read s with
  | mk s' program =>
    cases program with
    | none => rfl
    | some program => exact Session.run_upon i.settings program

/-- What an input adds is what it comes to where nothing has been written. -/
theorem run_since : (i.run s).since s = i.run s.fresh := by
  have h := i.run_upon (s := s.fresh) (t := s)
  rw [fresh_upon] at h
  rw [h, since_upon]

/-- What is found wrong with an input before anything runs. A text whose tokens are wrong, or that
is no program, is not resolved. -/
def errors : List StaticError :=
  let scan := Scan.ofText i.source
  match if i.isTyped then bareExpression? scan else none with
  | some e => (Resolution.ofProgram [.print e.line e]).errors
  | none =>
    let parse := Parse.program scan.tokens
    let errors := scan.errors ++ parse.errors scan.finish.line
    if errors.isEmpty then (Resolution.ofProgram parse.value).errors else errors

def step (s : Session) (i : Input) : Session := (i.run s).reset

theorem read_of_errors (hs : s.reset = s) (h : i.errors ≠ []) :
    i.read s = (s.report i.errors, none) := by
  have hfound : i.found s = s := by
    unfold found
    rw [hs, ite_self]
  have hclean : s.diagnostics.hadError = false := by rw [← hs]; rfl
  have hrefused {errors : List StaticError} (h : errors ≠ []) :
      (s.report errors).diagnostics.hadError = true := (s.refuses_report h).hadError
  have hresolve {program : List RawStmt} (h : (Resolution.ofProgram program).errors ≠ []) :
      s.resolve program = (s.report (Resolution.ofProgram program).errors, none) := by
    unfold resolve
    simp only [hrefused h, if_true]
  unfold read
  unfold errors at h ⊢
  rw [hfound]
  dsimp only at h ⊢
  generalize (if i.isTyped then bareExpression? (Scan.ofText i.source) else none) = bare at h ⊢
  cases bare with
  | some e => exact hresolve h
  | none =>
    dsimp only at h ⊢
    split at h
    · next hnone =>
      rw [List.isEmpty_iff] at hnone
      rw [hnone]
      show (if s.diagnostics.hadError then _ else s.resolve _) = _
      rw [hclean]
      exact hresolve h
    · next hsome =>
      rw [if_neg hsome, if_pos (hrefused h)]

end Input

theorem step_upon (i : Input) : i.step (s.upon t) = (i.step s).upon t := by
  unfold Input.step
  rw [i.run_upon]
  rfl

theorem foldl_step_upon (is : List Input) :
    is.foldl Input.step (s.upon t) = (is.foldl Input.step s).upon t := by
  induction is generalizing s with
  | nil => rfl
  | cons i is ih =>
    rw [List.foldl_cons, step_upon, ih]
    rfl

theorem reset_foldl_step (hs : s.reset = s) (is : List Input) :
    (is.foldl Input.step s).reset = is.foldl Input.step s := by
  induction is generalizing s with
  | nil => exact hs
  | cons i is ih => exact ih rfl

/-- The sessions that the inputs lead to, each as far as it is new: all that is stored, the flags,
and what the input has written and logged. Behind each input the record of errors is cleared. -/
def answers (s : Session) : List Input → List Session
  | [] => []
  | i :: is => (i.run s).since s :: (i.step s).answers is

theorem answers_append (before after : List Input) :
    s.answers (before ++ after) =
      s.answers before ++ (before.foldl Input.step s).answers after := by
  induction before generalizing s with
  | nil => rfl
  | cons i before ih => exact congrArg _ ih

theorem answers_upon (is : List Input) : (s.upon t).answers is = s.answers is := by
  induction is generalizing s with
  | nil => rfl
  | cons i is ih =>
    show (i.run (s.upon t)).since (s.upon t) :: (i.step (s.upon t)).answers is =
      (i.run s).since s :: (i.step s).answers is
    rw [i.run_since, i.run_since, step_upon, ih]
    rfl

theorem machine_report_eq (errors : List StaticError) :
    (s.report errors).machine = { s.machine with
      events := (errors.map fun e => .reported e.text).reverse ++ s.machine.events } := by
  induction errors generalizing s with
  | nil => rfl
  | cons e errors ih =>
    refine (ih (s := s.reportError e)).trans ?_
    simp [reportError, record]

/-- What has been reported is all that a cleared record has kept of it. -/
theorem fresh_report (errors : List StaticError) :
    (s.report errors).reset.fresh = s.reset.fresh := by
  induction errors generalizing s with
  | nil => rfl
  | cons e errors ih => exact ih (s := s.reportError e)

/-- The input is not carried out and only its errors are reported. -/
structure Unmoved (s : Session) (i : Input) : Prop where
  read : i.read s = (s.report i.errors, none)
  run : i.run s = s.report i.errors
  machine : (i.run s).machine = { s.machine with
    events := (i.errors.map fun e => .reported e.text).reverse ++ s.machine.events }
  output : (i.run s).machine.events.output = s.machine.events.output
  breakdown : (i.run s).breakdown = s.breakdown

theorem unmoved_of_errors {i : Input} (hs : s.reset = s) (h : i.errors ≠ []) : s.Unmoved i := by
  have hread := i.read_of_errors hs h
  have hrun : i.run s = s.report i.errors := by
    rw [i.run_eq, Input.runBy, hread]
  refine ⟨hread, hrun, ?_, ?_, ?_⟩
  · rw [hrun, machine_report_eq]
  · rw [hrun, output_report]
  · rw [hrun, breakdown_report]

/-- The same session, were it not for some messages. -/
structure Matches (s t : Session) : Prop where
  machine : ∃ events, s.machine = { t.machine with events }
  output : s.machine.events.output = t.machine.events.output
  hadError : s.diagnostics.hadError = t.diagnostics.hadError
  hadRuntimeError : s.diagnostics.hadRuntimeError = t.diagnostics.hadRuntimeError
  breakdown : s.breakdown = t.breakdown

theorem matches_upon (u : Session) (h : s.machine.events.output = t.machine.events.output) :
    (u.upon s).Matches (u.upon t) := by
  refine ⟨⟨_, rfl⟩, ?_, rfl, rfl, rfl⟩
  show Transcript.output (u.machine.events ++ _) = Transcript.output (u.machine.events ++ _)
  rw [Transcript.output_append, Transcript.output_append, h]

/-- An input with an error moves nothing, and without it the rest of the session is the same. -/
theorem answers_omit (clock : Float) (before after : List Input) {i : Input} (h : i.errors ≠ []) :
    let s := before.foldl Input.step (initial clock)
    s.Unmoved i ∧
      (initial clock).answers (before ++ i :: after) =
        (initial clock).answers before ++ (i.run s).since s :: s.answers after ∧
      (initial clock).answers (before ++ after) =
        (initial clock).answers before ++ s.answers after ∧
      ((before ++ i :: after).foldl Input.step (initial clock)).Matches
        ((before ++ after).foldl Input.step (initial clock)) := by
  intro s
  have hs : s.reset = s := reset_foldl_step rfl before
  have hunmoved := unmoved_of_errors hs h
  have hstep : i.step s = s.fresh.upon (i.step s) := by
    have hfresh : (i.step s).fresh = s.fresh := by
      rw [Input.step, hunmoved.run, fresh_report, hs]
    rw [← hfresh]
    rfl
  refine ⟨hunmoved, ?_, answers_append before after, ?_⟩
  · rw [answers_append]
    show _ ++ _ :: (i.step s).answers after = _
    rw [hstep, answers_upon, ← answers_upon (s := s.fresh) (t := s), fresh_upon]
  · rw [List.foldl_append, List.foldl_append]
    show (after.foldl Input.step (i.step s)).Matches (after.foldl Input.step s)
    have hwithout : after.foldl Input.step s = (after.foldl Input.step s.fresh).upon s := by
      rw [← foldl_step_upon, fresh_upon]
    rw [hstep, foldl_step_upon, hwithout]
    exact matches_upon _ hunmoved.output

/-- Returns where there is no function, behind a block that could have been run. -/
def misread : Input := ⟨"\x7b var a = 1; var b = a; \x7d return b;", false, false, {}⟩

theorem misread_omit :
    misread.errors ≠ [] ∧
      let greet : Input := ⟨"var a = \"one\"; print a;", false, false, {}⟩
      let again : Input := ⟨"a", true, false, {}⟩
      (initial 0).answers [greet, misread, again] =
        (initial 0).answers [greet] ++ (misread.run (greet.step (initial 0))).since
          (greet.step (initial 0)) :: (greet.step (initial 0)).answers [again] ∧
      (initial 0).answers [greet, again] =
        (initial 0).answers [greet] ++ (greet.step (initial 0)).answers [again] := by
  have h : misread.errors ≠ [] := by decide +kernel
  refine ⟨h, ?_⟩
  intro greet again
  obtain ⟨_, hwith, hwithout, _⟩ := answers_omit 0 [greet] [again] h
  exact ⟨hwith, hwithout⟩

end Session
end Lox

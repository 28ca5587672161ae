import Lox.Proofs.Input
import Lox.Proofs.Parallel

/-! Supervised sessions. Runs that are told what is to come, on the machine that a session has, go
as the session does when each of its programs does, once all of it is known. -/

namespace Lox

/-- Told the truth, the left side carries out any accepted program as the right side executes it.
Both sides have the same machine. -/
structure Parallel.Supervises (P : Parallel)
    (carryOut : P.Told → Settings → List BoundStmt → Eval Unit) : Prop where
  left_eq (s : P.State) : P.left s = P.right s
  fails_eq {f g : Failure} : P.Fails f g → f = g
  current_eq {s t : P.State} : P.Later s t → (P.right t).current = (P.right s).current
  /-- Between inputs, calls are over and events may be recorded. -/
  rests (s : P.State) (callDepth : Nat) (events : Transcript) :
    ∃ t, P.Later s t ∧ P.right t = { P.right s with callDepth, events }
  runs (s : P.State) (settings : Settings) {program : List RawStmt} : Accepted program →
    (P.right s).current = Machine.globals →
      P.Runs s (fun told => carryOut told settings (Stmt.boundList .topLevel program))
        (Eval.executeProgram settings (Stmt.boundList .topLevel program)) fun _ _ _ => True

namespace Session
variable {P : Parallel} {carryOut : P.Told → Settings → List BoundStmt → Eval Unit}

/-- From the state, the session comes to `t`, and so does what is told the truth. -/
def Follows (s : P.State) (x : P.Told → Session) (t : Session) : Prop :=
  ∃ u : P.State, P.Later s u ∧ t.machine = P.right u ∧ ∀ told, P.Confirms u told → x told = t

variable {s : P.State} {session : Session}

theorem run_follows (hP : P.Supervises carryOut) (hs : session.machine = P.right s)
    (hcurrent : session.machine.current = Machine.globals) (settings : Settings)
    {program : List RawStmt} (ha : Accepted program) :
    let bound := Stmt.boundList .topLevel program
    Follows s (fun told => session.run (carryOut told settings bound))
      (session.run (Eval.executeProgram settings bound)) := by
  intro bound
  obtain ⟨t, ht, ending, hy, hx⟩ := (hP.runs s settings ha (hs ▸ hcurrent)).ending
    fun _ _ => hP.fails_eq
  obtain ⟨u, hu, hrest⟩ := hP.rests t 0 (P.right t).events
  have hrest : { P.right t with current := Machine.globals, callDepth := 0 } = P.right u := by
    rw [hrest, ← hcurrent, hs, ← hP.current_eq ht]
  rw [← hs, hrest] at hy
  have hx (told : P.Told) (htold : P.Confirms u told) :
      session.machine.run (carryOut told settings bound) = (ending, P.right u) := by
    have hcarried := hx told (P.confirms_later hu htold)
    rwa [hP.left_eq, hP.left_eq, ← hs, hrest] at hcarried
  obtain ⟨events, hconclude⟩ :=
    machine_conclude ({ session with machine := P.right u } : Session) ending
  obtain ⟨v, hv, hevents⟩ := hP.rests u (P.right u).callDepth events
  refine ⟨v, P.later_trans (P.later_trans ht hu) hv, ?_, fun told htold => ?_⟩
  · rw [run_def, hy, hconclude, hevents]
  · show session.run (carryOut told settings bound) = _
    rw [run_def, run_def, hy, hx told (P.confirms_later hv htold)]

theorem input_follows (hP : P.Supervises carryOut) (hs : session.machine = P.right s)
    (hcurrent : session.machine.current = Machine.globals) (i : Input) :
    Follows s (fun told => i.runBy (carryOut told) session) (i.run session) := by
  obtain ⟨events, hread⟩ := (annotated_read session i).machine
  obtain ⟨t, ht, hrest⟩ := hP.rests s (P.right s).callDepth events
  rw [Input.run_eq]
  unfold Input.runBy
  cases hr : i.read session with
  | mk session' program =>
    rw [hr] at hread
    have hs' : session'.machine = P.right t := by rw [hread, hs, hrest]
    cases program with
    | none => exact ⟨t, ht, hs', fun _ _ => rfl⟩
    | some bound =>
      obtain ⟨program, ha, rfl⟩ := accepted_read (congrArg Prod.snd hr)
      have hcurrent' : session'.machine.current = Machine.globals := by rw [hread]; exact hcurrent
      obtain ⟨u, hu, hrun⟩ := run_follows hP hs' hcurrent' i.settings ha
      exact ⟨u, P.later_trans ht hu, hrun⟩

theorem foldl_follows (hP : P.Supervises carryOut) (hs : session.machine = P.right s)
    (hcurrent : session.machine.current = Machine.globals) (inputs : List Input) :
    Follows s (fun told => inputs.foldl (Input.runBy (carryOut told)) session)
      (inputs.foldl Input.run session) := by
  induction inputs generalizing s session with
  | nil => exact ⟨s, P.later_refl s, hs, fun _ _ => rfl⟩
  | cons i inputs ih =>
    obtain ⟨t, ht, hmachine, hfirst⟩ := input_follows hP hs hcurrent i
    have hcurrent' : (i.run session).machine.current = Machine.globals := by
      rw [hmachine, hP.current_eq ht, ← hs, hcurrent]
    obtain ⟨u, hu, hend, hrest⟩ := ih hmachine hcurrent'
    refine ⟨u, P.later_trans ht hu, hend, fun told htold => ?_⟩
    have hi : i.runBy (carryOut told) session = i.run session :=
      hfirst told (P.confirms_later hu htold)
    dsimp only
    rw [List.foldl_cons, List.foldl_cons, hi]
    exact hrest told htold

end Session
end Lox

import Lox.Proofs.Audit
import Lox.Proofs.Erasure
import Lox.Proofs.Refinement

/-! Whole programs. A machine that runs a resolved program writes, raises and leaves behind what
the semantics of locations says. -/

namespace Lox

section
variable {ρ ε ρ' ε' : Type} {P Q : Closure ρ ε → Closure ρ' ε' → Prop}

theorem Bindings.Rel.mapValues_eq {α β γ : Type} {P : α → β → Prop} {f : α → γ} {g : β → γ}
    {b : Bindings α} {c : Bindings β} (h : Rel P b c) (hfg : ∀ v w, P v w → f v = g w) :
    b.mapValues f = c.mapValues g := by
  unfold Bindings.mapValues
  induction h with
  | nil => rfl
  | cons hp _ ih => rw [List.map_cons, List.map_cons, ih, hp.1, hfg _ _ hp.2]

theorem Class.Rel.erased_eq {c : Class ρ ε} {d : Class ρ' ε'} (h : c.Rel P d)
    (hP : ∀ f g, P f g → f.erased = g.erased) : c.erased = d.erased := by
  induction c generalizing d with
  | root id name methods =>
    cases d with
    | root =>
      obtain ⟨rfl, rfl, hm⟩ := h
      simp only [Class.erased, hm.mapValues_eq hP]
    | derived => exact h.elim
  | derived id name methods superclass ih =>
    cases d with
    | root => exact h.elim
    | derived =>
      obtain ⟨rfl, rfl, hm, hs⟩ := h
      simp only [Class.erased, hm.mapValues_eq hP, ih hs]

theorem Value.Rel.erased_eq {v : Value ρ ε} {w : Value ρ' ε'} (h : v.Rel P Q w)
    (hP : ∀ f g, P f g → f.erased = g.erased) (hQ : ∀ f g, Q f g → f.erased = g.erased) :
    v.erased = w.erased := by
  unfold Value.Rel at h
  split at h
  case h_6 => simp only [Value.erased, hP _ _ h]
  case h_7 => simp only [Value.erased, Class.Rel.erased_eq h hQ]
  case h_8 => simp only [Value.erased, h.1, h.2.erased_eq hQ]
  all_goals first | exact h.elim | rfl | (rw [h]; rfl)

end

namespace Lexical

theorem erased_of_written {f : Closure} {g : Code} {s : Surroundings} {activation : Activation}
    (h : f.Written s activation g.declaration) (hid : f.id = g.id)
    (hi : f.isInitializer = g.isInitializer) : f.erased = g.erased := by
  unfold Closure.erased
  rw [hid, hi, h.declaration, Stmt.rawFunction_functionBound]

theorem World.Alike.erased_eq {W : World} {v : Value} {w : Datum} (h : W.Alike v w) :
    v.erased = w.erased := by
  refine Value.Rel.erased_eq h (fun f g hfg => ?_) fun f g hfg => ?_
  · obtain ⟨hid, hi, s, activation, hw, -⟩ := hfg
    exact erased_of_written hw hid hi
  · obtain ⟨hid, hi, s, activation, hw, -⟩ := hfg
    exact erased_of_written hw hid hi

/-- How a run ends, what it writes, and the globals and instances that it leaves. -/
structure SameRun (r : Option Failure × Machine) (r' : Option Stop × Store) : Prop where
  ends : Option.Rel Failure.Matches r.1 r'.1
  output : r.2.events.output = r'.2.output
  globals : Bindings.mapValues Value.erased (r.2.environments.bindings Machine.globals) =
    Bindings.mapValues Value.erased r'.2.globals
  objects : r.2.objects.toList.map (Bindings.mapValues Value.erased) =
    r'.2.objects.toList.map (Bindings.mapValues Value.erased)

def Twin.initial (clock : Float) : Twin := ⟨.initial clock, .initial clock, fun _ _ => none⟩

theorem bindings_initial (clock : Float) (e : Nat) :
    (Machine.initial clock).environments.bindings e =
      if e = Machine.globals then [("clock", .native .clock)] else [] := by
  have h := Environments.bindings_create .empty none [("clock", (.native .clock : Value))] e
  exact h

theorem mirrored_initial (clock : Float) : (Twin.initial clock).Mirrored 0 where
  older := Nat.zero_le _
  exists_ := by simp [Twin.initial, Machine.initial, Environments.size_create, Machine.globals]
  within _ _ _ h := nomatch h
  apart _ _ _ _ _ h := nomatch h
  cells e x v he hv := by
    have hv : Bindings.find? ((Machine.initial clock).environments.bindings e) x = some v := hv
    rw [bindings_initial, if_neg he] at hv
    cases hv
  globals := by
    show Bindings.Rel _ ((Machine.initial clock).environments.bindings Machine.globals) _
    rw [bindings_initial]
    exact .cons ⟨rfl, rfl⟩ .nil
  objects_size := rfl
  objects i b c hb := by simp [Twin.initial, Machine.initial] at hb
  created := rfl
  callDepth := rfl
  clock := rfl
  output := rfl

theorem shows_initial (clock : Float) :
    (Twin.initial clock).world.Shows Machine.globals .topLevel .topLevel where
  exists_ := (mirrored_initial clock).exists_
  global _ := ⟨rfl, rfl⟩
  local_ h := absurd rfl h
  found x d h := by
    rw [Surroundings.hops_of_global rfl] at h
    cases h
  free _ _ := rfl

theorem Twin.Mirrored.sameRun {n : Nat} {t : Twin} (h : t.Mirrored n) {f : Option Failure}
    {stop : Option Stop} (hf : Option.Rel Failure.Matches f stop) :
    SameRun (f, { t.machine with current := Machine.globals, callDepth := 0 }) (stop, t.store) where
  ends := hf
  output := h.output
  globals := h.globals.mapValues_eq fun _ _ hvw => hvw.erased_eq
  objects := by
    have hsize := h.objects_size
    apply List.ext_getElem (by simpa using hsize)
    intro i hi hi'
    simp only [List.length_map, Array.length_toList] at hi hi'
    simp only [List.getElem_map, Array.getElem_toList]
    exact (h.objects i _ _ (Array.getElem?_eq_getElem hi)
      (Array.getElem?_eq_getElem hi')).mapValues_eq fun _ _ hvw => hvw.erased_eq

theorem run_accepted (settings : Settings) (clock : Float) {program : List RawStmt}
    (h : Accepted program) :
    SameRun ((Machine.initial clock).run
      (Eval.executeProgram settings (Stmt.boundList .topLevel program)))
      (run settings program clock) := by
  have hsim := executeProgram_sim settings h.accepted h.regular
    Surroundings.lawful_topLevel rfl (mirrored_initial clock) (shows_initial clock)
  have hinitial : (Machine.initial clock).Sound := (Session.ready_initial clock).sound
  have hsound := (Audit.executeProgram_agrees settings rfl h.accepted h.regular
    Surroundings.settled_topLevel hinitial (hinitial.standsAt rfl)).2
  unfold Sim at hsim
  unfold Machine.run run
  change Meets 0 _ _ (Eval.executeProgram settings _ (Machine.initial clock))
    (executeProgram settings program (.initial clock)) at hsim
  generalize Eval.executeProgram settings (Stmt.boundList .topLevel program)
    (Machine.initial clock) = r at hsim hsound ⊢
  generalize executeProgram settings program (.initial clock) = r' at hsim ⊢
  cases r with
  | ok a m =>
    cases r' with
    | ok b s =>
      obtain ⟨place, hm, -, -⟩ := hsim
      exact hm.sameRun .none
    | error stop s => exact hsim.elim
  | error f m =>
    obtain ⟨-, -, hfault⟩ := hsound
    cases r' with
    | ok b s => cases f <;> first | exact hsim.elim | cases hfault
    | error stop s =>
      cases f with
      | fault => cases hfault
      | _ =>
        obtain ⟨hf, place, hm⟩ := hsim
        exact hm.sameRun (.some hf)

/-- A program without static errors is run with its names resolved, and runs as lexical scoping
says. -/
theorem runProgram_sameRun (settings : Settings) (clock : Float) {source : String}
    (hlex : (Scan.ofText source).errors = [])
    (hparse : (Parse.program (Scan.ofText source).tokens).complaints = [])
    (hresolve :
      (Resolution.ofProgram (Parse.program (Scan.ofText source).tokens).value).errors = []) :
    let program := (Parse.program (Scan.ofText source).tokens).value
    let bound := (Resolution.ofProgram program).program
    (Session.initial clock).runProgram settings source =
        (Session.initial clock).run (Eval.executeProgram settings bound) ∧
      SameRun ((Machine.initial clock).run (Eval.executeProgram settings bound))
        (run settings program clock) := by
  intro program bound
  have haccepted : Accepted program := by
    rw [Resolution.ofProgram_eq] at hresolve
    exact ⟨Parse.program_regular (Scan.ofText_spelled source), hresolve⟩
  constructor
  · have herrors : (Parse.program (Scan.ofText source).tokens).errors
        (Scan.ofText source).finish.line = [] := by
      rw [Parse.errors, hparse, List.map_nil]
    unfold Session.runProgram Session.resolveAndRun
    simp only [hlex, herrors, hresolve]
    rfl
  · have hbound : bound = Stmt.boundList .topLevel program :=
      congrArg Resolution.program (Resolution.ofProgram_eq program)
    rw [hbound]
    exact run_accepted settings clock haccepted

/-- A function declared before its block declares a name goes on seeing the global of that name. -/
def shadowing : String :=
  "var a = \"global\"; \x7b fun f() \x7b print a; \x7d f(); var a = \"block\"; f(); \x7d"

theorem shadowing_sameRun :
    (Scan.ofText shadowing).errors = [] ∧
      (Parse.program (Scan.ofText shadowing).tokens).complaints = [] ∧
      (Resolution.ofProgram (Parse.program (Scan.ofText shadowing).tokens).value).errors = [] ∧
      let program := (Parse.program (Scan.ofText shadowing).tokens).value
      let bound := (Resolution.ofProgram program).program
      SameRun ((Machine.initial 0).run (Eval.executeProgram {} bound)) (run {} program 0) := by
  have hlex : (Scan.ofText shadowing).errors = [] := by decide +kernel
  have hparse : (Parse.program (Scan.ofText shadowing).tokens).complaints = [] := by
    decide +kernel
  have hresolve :
      (Resolution.ofProgram (Parse.program (Scan.ofText shadowing).tokens).value).errors = [] := by
    decide +kernel
  exact ⟨hlex, hparse, hresolve, (runProgram_sameRun {} 0 hlex hparse hresolve).2⟩

end Lexical
end Lox

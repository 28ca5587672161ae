import Lox.Proofs.Input

/-! Pruned programs. In a block or the body of a function, what follows a return statement can be
cut off, at any choice of return statements. Names still resolve to the same declarations, since
nothing in front of a place is cut off unless the place is as well. -/

namespace Lox
variable {ρ : Type}

namespace Stmt

/-- A return statement with nothing to follow it. -/
def isLast (last : Token → Bool) : Stmt ρ → Bool
  | return_ keyword _ => last keyword
  | _ => false

mutual

/-- Cuts off what follows the return statements that are chosen by their keyword, which tells its
place. -/
def pruned (last : Token → Bool) : Stmt ρ → Stmt ρ
  | block line body => block line (prunedList last body)
  | ifThen line condition thenBranch => ifThen line condition (pruned last thenBranch)
  | ifElse line condition thenBranch elseBranch =>
    ifElse line condition (pruned last thenBranch) (pruned last elseBranch)
  | while_ line condition body => while_ line condition (pruned last body)
  | function declaration => function (prunedFunction last declaration)
  | class_ line name superclass methods =>
    class_ line name superclass (prunedFunctions last methods)
  | expression line value => expression line value
  | print line value => print line value
  | var name initializer => var name initializer
  | return_ keyword value => return_ keyword value

def prunedList (last : Token → Bool) : List (Stmt ρ) → List (Stmt ρ)
  | [] => []
  | st :: ss => pruned last st :: (if st.isLast last then [] else prunedList last ss)

def prunedFunction (last : Token → Bool) : Function ρ → Function ρ
  | .mk name parameters body => .mk name parameters (prunedList last body)

def prunedFunctions (last : Token → Bool) : List (Function ρ) → List (Function ρ)
  | [] => []
  | f :: fs => prunedFunction last f :: prunedFunctions last fs

end

variable (last : Token → Bool)

@[simp] theorem line_pruned (st : Stmt ρ) : (st.pruned last).line = st.line := by
  cases st with
  | function f => cases f; rfl
  | _ => rfl

@[simp] theorem kind_pruned (st : Stmt ρ) : (st.pruned last).kind = st.kind := by
  cases st <;> rfl

@[simp] theorem isPlain_pruned (st : Stmt ρ) : (st.pruned last).isPlain = st.isPlain := by
  cases st <;> rfl

@[simp] theorem name_prunedFunction (f : Function ρ) : (prunedFunction last f).name = f.name := by
  cases f
  rfl

@[simp] theorem parameters_prunedFunction (f : Function ρ) :
    (prunedFunction last f).parameters = f.parameters := by
  cases f
  rfl

@[simp] theorem body_prunedFunction (f : Function ρ) :
    (prunedFunction last f).body = prunedList last f.body := by
  cases f
  rfl

/-! ### Where nothing is chosen -/

theorem isLast_none (st : Stmt ρ) : st.isLast (fun _ => false) = false := by
  cases st <;> rfl

mutual

theorem pruned_none (st : Stmt ρ) : st.pruned (fun _ => false) = st := by
  cases st with
  | block line body => rw [pruned, prunedList_none body]
  | ifThen line condition thenBranch => rw [pruned, pruned_none thenBranch]
  | ifElse line condition thenBranch elseBranch =>
    rw [pruned, pruned_none thenBranch, pruned_none elseBranch]
  | while_ line condition body => rw [pruned, pruned_none body]
  | function f => rw [pruned, prunedFunction_none f]
  | class_ line name superclass methods => rw [pruned, prunedFunctions_none methods]
  | _ => rfl

theorem prunedList_none (ss : List (Stmt ρ)) : prunedList (fun _ => false) ss = ss := by
  cases ss with
  | nil => rfl
  | cons st ss => rw [prunedList, pruned_none st, isLast_none, prunedList_none ss]; rfl

theorem prunedFunction_none (f : Function ρ) : prunedFunction (fun _ => false) f = f := by
  cases f with
  | mk name parameters body => rw [prunedFunction, prunedList_none body]

theorem prunedFunctions_none (fs : List (Function ρ)) :
    prunedFunctions (fun _ => false) fs = fs := by
  cases fs with
  | nil => rfl
  | cons f fs => rw [prunedFunctions, prunedFunction_none f, prunedFunctions_none fs]

end

/-! ### Names in a pruned program -/

theorem after_pruned (s : Surroundings) (st : RawStmt) :
    after s (st.pruned last) = after s st := by
  cases st with
  | ifThen line condition thenBranch => exact after_pruned s thenBranch
  | ifElse line condition thenBranch elseBranch =>
    simp only [pruned, after, after_pruned s thenBranch,
      after_pruned (after s thenBranch) elseBranch]
  | while_ line condition body => exact after_pruned s body
  | function f => cases f; rfl
  | _ => rfl

theorem methodActivation_pruned (f : RawFunction) :
    Resolver.methodActivation (prunedFunction last f) = Resolver.methodActivation f := by
  cases f
  rfl

mutual

theorem bound_pruned (s : Surroundings) (st : RawStmt) :
    (st.pruned last).bound s = (st.bound s).pruned last := by
  cases st with
  | block line body => exact congrArg (block line) (boundList_pruned (s.push []) body)
  | ifThen line condition thenBranch =>
    exact congrArg (ifThen line _) (bound_pruned s thenBranch)
  | ifElse line condition thenBranch elseBranch =>
    simp only [pruned, bound, after_pruned, bound_pruned s thenBranch,
      bound_pruned (after s thenBranch) elseBranch]
  | while_ line condition body => exact congrArg (while_ line _) (bound_pruned s body)
  | function f =>
    obtain ⟨name, parameters, body⟩ := f
    exact congrArg function
      (functionBound_pruned (s.bind name.lexeme true) .function (.mk name parameters body))
  | class_ line name superclass methods =>
    exact congrArg (class_ line name _)
      (methodsBound_pruned ((s.bind name.lexeme true).ofMethods superclass.isSome) methods)
  | _ => rfl

theorem boundList_pruned (s : Surroundings) (ss : List RawStmt) :
    boundList s (prunedList last ss) = prunedList last (boundList s ss) := by
  cases ss with
  | nil => rfl
  | cons st ss =>
    have hlast : (st.bound s).isLast last = st.isLast last := by
      cases st with
      | function f => cases f; rfl
      | _ => rfl
    rw [prunedList, boundList, boundList, prunedList, bound_pruned s st, after_pruned, hlast]
    split
    · rfl
    · rw [boundList_pruned (after s st) ss]

theorem functionBound_pruned (s : Surroundings) (activation : Activation) (f : RawFunction) :
    functionBound s activation (prunedFunction last f) =
      prunedFunction last (functionBound s activation f) := by
  cases f with
  | mk name parameters body =>
    exact congrArg (Function.mk name parameters)
      (boundList_pruned (s.entering activation parameters) body)

theorem methodsBound_pruned (s : Surroundings) (fs : List RawFunction) :
    methodsBound s (prunedFunctions last fs) = prunedFunctions last (methodsBound s fs) := by
  cases fs with
  | nil => rfl
  | cons f fs =>
    rw [prunedFunctions, methodsBound, methodsBound, prunedFunctions, methodActivation_pruned,
      functionBound_pruned s _ f, methodsBound_pruned s fs]

end

mutual

/-- Whatever is wrong with the pruned program is wrong with the program. -/
theorem problems_pruned (s : Surroundings) (st : RawStmt) :
    ((st.pruned last).problems s).Sublist (st.problems s) := by
  cases st with
  | block line body => exact problemsList_pruned (s.push []) body
  | ifThen line condition thenBranch =>
    exact (List.Sublist.refl _).append (problems_pruned s thenBranch)
  | ifElse line condition thenBranch elseBranch =>
    have hafter := after_pruned last s thenBranch
    have helse := problems_pruned (after s thenBranch) elseBranch
    rw [← hafter] at helse
    rw [pruned, problems, problems, ← hafter]
    exact ((List.Sublist.refl _).append (problems_pruned s thenBranch)).append helse
  | while_ line condition body => exact (List.Sublist.refl _).append (problems_pruned s body)
  | function f =>
    obtain ⟨name, parameters, body⟩ := f
    exact (List.Sublist.refl _).append (functionProblems_pruned (s.bind name.lexeme true) .function
      (.mk name parameters body))
  | class_ line name superclass methods =>
    exact (List.Sublist.refl _).append
      (methodsProblems_pruned ((s.bind name.lexeme true).ofMethods superclass.isSome) methods)
  | _ => exact .refl _

theorem problemsList_pruned (s : Surroundings) (ss : List RawStmt) :
    (problemsList s (prunedList last ss)).Sublist (problemsList s ss) := by
  cases ss with
  | nil => exact .refl _
  | cons st ss =>
    rw [prunedList, problemsList, problemsList, after_pruned]
    refine (problems_pruned s st).append ?_
    split
    · exact List.nil_sublist _
    · exact problemsList_pruned (after s st) ss

theorem functionProblems_pruned (s : Surroundings) (activation : Activation) (f : RawFunction) :
    (functionProblems s activation (prunedFunction last f)).Sublist
      (functionProblems s activation f) := by
  cases f with
  | mk name parameters body =>
    exact (List.Sublist.refl _).append
      (problemsList_pruned (s.entering activation parameters) body)

theorem methodsProblems_pruned (s : Surroundings) (fs : List RawFunction) :
    (methodsProblems s (prunedFunctions last fs)).Sublist (methodsProblems s fs) := by
  cases fs with
  | nil => exact .refl _
  | cons f fs =>
    rw [prunedFunctions, methodsProblems, methodsProblems, methodActivation_pruned]
    exact (functionProblems_pruned s _ f).append (methodsProblems_pruned s fs)

end

section
variable {T : Token → Prop}

mutual

theorem regular_pruned (st : Stmt ρ) (h : st.Regular T) : (st.pruned last).Regular T := by
  cases st with
  | block line body => exact regularList_pruned body h
  | ifThen line condition thenBranch =>
    exact ⟨h.1, regular_pruned thenBranch h.2.1, (isPlain_pruned last thenBranch).trans h.2.2⟩
  | ifElse line condition thenBranch elseBranch =>
    exact ⟨h.1, ⟨regular_pruned thenBranch h.2.1.1,
      (isPlain_pruned last thenBranch).trans h.2.1.2⟩,
      regular_pruned elseBranch h.2.2.1, (isPlain_pruned last elseBranch).trans h.2.2.2⟩
  | while_ line condition body =>
    exact ⟨h.1, regular_pruned body h.2.1, (isPlain_pruned last body).trans h.2.2⟩
  | function f => exact functionRegular_pruned f h
  | class_ line name superclass methods => exact ⟨h.1, h.2.1, methodsRegular_pruned methods h.2.2⟩
  | _ => exact h

theorem regularList_pruned (ss : List (Stmt ρ)) (h : RegularList T ss) :
    RegularList T (prunedList last ss) := by
  cases ss with
  | nil => trivial
  | cons st ss =>
    refine ⟨regular_pruned st h.1, ?_⟩
    split
    · trivial
    · exact regularList_pruned ss h.2

theorem functionRegular_pruned (f : Function ρ) (h : FunctionRegular T f) :
    FunctionRegular T (prunedFunction last f) := by
  cases f with
  | mk name parameters body => exact ⟨h.1, h.2.1, regularList_pruned body h.2.2⟩

theorem methodsRegular_pruned (fs : List (Function ρ)) (h : MethodsRegular T fs) :
    MethodsRegular T (prunedFunctions last fs) := by
  cases fs with
  | nil => trivial
  | cons f fs => exact ⟨functionRegular_pruned f h.1, methodsRegular_pruned fs h.2⟩

end
end

/-! ### Whole programs

No block holds the statements of a program, so none of these is cut off. -/

theorem boundList_map_pruned (s : Surroundings) (ss : List RawStmt) :
    boundList s (ss.map (pruned last)) = (boundList s ss).map (pruned last) := by
  induction ss generalizing s with
  | nil => rfl
  | cons st ss ih =>
    rw [List.map_cons, boundList, boundList, List.map_cons, bound_pruned, after_pruned, ih]

theorem problemsList_map_pruned (s : Surroundings) (ss : List RawStmt) :
    (problemsList s (ss.map (pruned last))).Sublist (problemsList s ss) := by
  induction ss generalizing s with
  | nil => exact .refl _
  | cons st ss ih =>
    rw [List.map_cons, problemsList, problemsList, after_pruned]
    exact (problems_pruned last s st).append (ih _)

theorem regularList_map_pruned {T : Token → Prop} {ss : List (Stmt ρ)} (h : RegularList T ss) :
    RegularList T (ss.map (pruned last)) := by
  induction ss with
  | nil => trivial
  | cons st ss ih => exact ⟨regular_pruned last st h.1, ih h.2⟩

end Stmt

theorem Accepted.pruned (last : Token → Bool) {program : List RawStmt} (h : Accepted program) :
    Accepted (program.map (Stmt.pruned last)) where
  regular := Stmt.regularList_map_pruned last h.regular
  accepted := by
    have hsublist := Stmt.problemsList_map_pruned last .topLevel program
    rw [h.accepted] at hsublist
    exact List.sublist_nil.1 hsublist

/-- What a pruned program resolves to is the pruned resolution. -/
theorem Resolution.ofProgram_pruned (last : Token → Bool) {program : List RawStmt}
    (h : Accepted program) :
    ofProgram (program.map (Stmt.pruned last)) =
      ⟨(ofProgram program).program.map (Stmt.pruned last), []⟩ := by
  rw [ofProgram_eq, ofProgram_eq, (h.pruned last).accepted, Stmt.boundList_map_pruned]

end Lox

import Mathlib.Data.List.Pairwise
import Lox.Proofs.Renewal

/-! Declarations. No scope of an accepted program declares a name twice. So a renaming gives the new
name to the declarations that were chosen and to no other. -/

namespace Lox

namespace Surroundings
variable {s : Surroundings}

theorem hops_ne_zero_of_redeclared {name : Token} (h : s.redeclared name = []) :
    s.hops name.lexeme ≠ some 0 := by
  obtain ⟨scopes, pending, activation, context⟩ := s
  cases scopes with
  | nil => exact fun hz => nomatch hz
  | cons scope scopes =>
    intro hz
    rw [hops, List.findIdx?_cons] at hz
    split at hz
    · next hfound => simp [redeclared, hfound] at h
    · obtain ⟨d, -, hd⟩ := Option.map_eq_some_iff.1 hz
      cases hd

theorem hops_bind_mono (hs : s.scopes ≠ []) {x : String} (h : s.hops x = some 0) (name : String)
    (r : Bool) : (s.bind name r).hops x = some 0 := by
  rw [hops_bind hs]
  split
  · rfl
  · exact h

end Surroundings

namespace Stmt
variable {ρ : Type} {s : Surroundings} {T : Token → Prop} {t : Token} {x : String}

theorem declared?_of_varName? {st : Stmt ρ} (h : st.varName? = some t) :
    st.declared? = some t := by
  cases st <;> first | exact h | cases h

theorem declared?_of_isNamed {st : Stmt ρ} (h : st.isNamed x = true) :
    ∃ name, st.declared? = some name ∧ name.lexeme = x := by
  cases st with
  | function f =>
    cases f
    exact ⟨_, rfl, eq_of_beq h⟩
  | class_ => exact ⟨_, rfl, eq_of_beq h⟩
  | _ => cases h

theorem redeclared_of_declared? {st : RawStmt} {name : Token} (h : st.declared? = some name)
    (hp : st.problems s = []) : s.redeclared name = [] := by
  cases st with
  | var n initializer =>
    cases h
    exact (List.append_eq_nil_iff.1 hp).1
  | function f =>
    cases f
    cases h
    exact (List.append_eq_nil_iff.1 hp).1
  | class_ line n superclass methods =>
    cases h
    exact (List.append_eq_nil_iff.1 (List.append_eq_nil_iff.1 hp).1).1
  | _ => cases h

/-- Two statements that declare no name in common. -/
def Apart (st st' : Stmt ρ) : Prop :=
  ∀ name ∈ st.declared?, ∀ name' ∈ st'.declared?, name.lexeme ≠ name'.lexeme

instance : Std.Symm (Apart : Stmt ρ → Stmt ρ → Prop) where
  symm _ _ h name hname name' hname' he := h name' hname' name hname he.symm

/-- A local scope declares a name once, and none that it has already. -/
theorem pairwise_apart (hs : s.scopes ≠ []) {ss : List RawStmt} (hr : RegularList T ss)
    (hp : problemsList s ss = []) :
    (∀ st ∈ ss, ∀ name ∈ st.declared?, s.hops name.lexeme ≠ some 0) ∧ ss.Pairwise Apart := by
  induction ss generalizing s with
  | nil => exact ⟨(fun _ h => nomatch h), .nil⟩
  | cons st ss ih =>
    obtain ⟨hps, hpss⟩ := List.append_eq_nil_iff.1 hp
    cases hd : st.declared? with
    | none =>
      rw [after_of_isPlain hr.1 (isPlain_of_not_declared hd)] at hpss
      obtain ⟨hfree, hapart⟩ := ih hs hr.2 hpss
      refine ⟨fun st' hst' name hname => ?_, .cons (fun st' _ name hname => ?_) hapart⟩
      · rcases List.mem_cons.1 hst' with rfl | hst'
        · rw [hd] at hname
          cases hname
        · exact hfree st' hst' name hname
      · rw [hd] at hname
        cases hname
    | some n =>
      have hn := Surroundings.hops_ne_zero_of_redeclared (redeclared_of_declared? hd hps)
      rw [after_of_declared hd] at hpss
      have hbound := Surroundings.hops_bind hs n.lexeme n.lexeme true
      rw [if_pos rfl] at hbound
      obtain ⟨hfree, hapart⟩ := ih (Surroundings.bind_scopes_ne hs n.lexeme true) hr.2 hpss
      refine ⟨fun st' hst' name hname hz => ?_,
        .cons (fun st' hst' name hname name' hname' he => ?_) hapart⟩
      · rcases List.mem_cons.1 hst' with rfl | hst'
        · rw [hd] at hname
          cases hname
          exact hn hz
        · exact hfree st' hst' name hname (Surroundings.hops_bind_mono hs hz n.lexeme true)
      · rw [hd] at hname
        cases hname
        exact hfree st' hst' name' hname' (he ▸ hbound)

/-- The parameters and the body of a function, which share a scope, declare a name once. -/
structure Distinct (parameters : List Token) (body : List RawStmt) : Prop where
  inputs : parameters.Pairwise (·.lexeme ≠ ·.lexeme)
  between : ∀ p ∈ parameters, ∀ st ∈ body, ∀ name ∈ st.declared?, p.lexeme ≠ name.lexeme
  body : body.Pairwise Apart

theorem distinct_block {body : List RawStmt} (hr : RegularList T body)
    (hp : problemsList (s.push []) body = []) : Distinct [] body :=
  ⟨.nil, (fun _ h => nomatch h), (pairwise_apart (List.cons_ne_nil _ _) hr hp).2⟩

theorem pairwise_parameters (hs : s.scopes ≠ []) {parameters : List Token}
    (hp : s.repeatedParameters parameters = []) :
    (∀ p ∈ parameters, s.hops p.lexeme ≠ some 0) ∧ parameters.Pairwise (·.lexeme ≠ ·.lexeme) ∧
      (s.withParameters parameters).scopes ≠ [] ∧
      (∀ x, s.hops x = some 0 → (s.withParameters parameters).hops x = some 0) ∧
      ∀ p ∈ parameters, (s.withParameters parameters).hops p.lexeme = some 0 := by
  induction parameters generalizing s with
  | nil => exact ⟨(fun _ h => nomatch h), .nil, hs, fun _ h => h, (fun _ h => nomatch h)⟩
  | cons p ps ih =>
    obtain ⟨hpp, hpps⟩ := List.append_eq_nil_iff.1 hp
    have hn := Surroundings.hops_ne_zero_of_redeclared hpp
    have hbound := Surroundings.hops_bind hs p.lexeme p.lexeme true
    rw [if_pos rfl] at hbound
    obtain ⟨hfree, hapart, hlocal, hkept, hfound⟩ :=
      ih (Surroundings.bind_scopes_ne hs p.lexeme true) hpps
    have hmono (x : String) (hx : s.hops x = some 0) :=
      Surroundings.hops_bind_mono hs hx p.lexeme true
    refine ⟨?_, .cons (fun q hq he => hfree q hq (he ▸ hbound)) hapart, hlocal,
      fun x hx => hkept x (hmono x hx), ?_⟩
    · intro q hq hz
      rcases List.mem_cons.1 hq with rfl | hq
      · exact hn hz
      · exact hfree q hq (hmono _ hz)
    · intro q hq
      rcases List.mem_cons.1 hq with rfl | hq
      · exact hkept _ hbound
      · exact hfound q hq

theorem distinct_function {activation : Activation} {name : Token} {parameters : List Token}
    {body : List RawStmt} (hr : RegularList T body)
    (hp : functionProblems s activation (.mk name parameters body) = []) :
    Distinct parameters body := by
  obtain ⟨hpp, hpb⟩ := List.append_eq_nil_iff.1 hp
  obtain ⟨-, hapart, hlocal, -, hfound⟩ := pairwise_parameters (List.cons_ne_nil _ _) hpp
  obtain ⟨hfree, hbody⟩ := pairwise_apart hlocal hr hpb
  exact ⟨hapart, fun p hp st hst name hname he =>
    hfree st hst name hname (he ▸ hfound p hp), hbody⟩

end Stmt

namespace Renaming

/-- A token of a declaration, renamed if it was chosen. -/
def respell (r : Renaming) (t : Token) : Token := r.spell (r.chosen t) t

section
variable {parameters : List Token} {body : List RawStmt} {t t' : Token}

theorem eq_of_declared (h : Stmt.Distinct parameters body)
    (ht : t ∈ parameters ++ body.filterMap Stmt.varName?)
    (ht' : t' ∈ parameters ++ body.filterMap Stmt.varName?) (he : t.lexeme = t'.lexeme) :
    t = t' := by
  have hbetween {p v : Token} (hp : p ∈ parameters) (hv : v ∈ body.filterMap Stmt.varName?) :
      p.lexeme ≠ v.lexeme := by
    obtain ⟨st, hst, hv⟩ := List.mem_filterMap.1 hv
    exact h.between p hp st hst v (Stmt.declared?_of_varName? hv)
  rcases List.mem_append.1 ht with ht | ht <;> rcases List.mem_append.1 ht' with ht' | ht'
  · have : Std.Symm fun p q : Token => p.lexeme ≠ q.lexeme := ⟨fun _ _ h => h.symm⟩
    by_contra hne
    exact h.inputs.forall ht ht' hne he
  · exact absurd he (hbetween ht ht')
  · exact absurd he.symm (hbetween ht' ht)
  · obtain ⟨st, hst, hv⟩ := List.mem_filterMap.1 ht
    obtain ⟨st', hst', hv'⟩ := List.mem_filterMap.1 ht'
    by_cases hne : st = st'
    · subst hne
      exact Option.some.inj (hv.symm.trans hv')
    · exact absurd he (h.body.forall hst hst' hne t
        (Stmt.declared?_of_varName? hv) t' (Stmt.declared?_of_varName? hv'))

/-- No function or class has the name of a variable of its scope. -/
theorem not_isNamed_of_declared (h : Stmt.Distinct parameters body)
    (ht : t ∈ parameters ++ body.filterMap Stmt.varName?) :
    body.any (Stmt.isNamed t.lexeme) = false := by
  rw [List.any_eq_false]
  intro st hst hnamed
  obtain ⟨name, hname, he⟩ := Stmt.declared?_of_isNamed hnamed
  rcases List.mem_append.1 ht with ht | ht
  · exact h.between t ht st hst name hname he.symm
  · obtain ⟨st', hst', hv⟩ := List.mem_filterMap.1 ht
    have hne : st' ≠ st := by
      rintro rfl
      cases st' <;> contradiction
    exact h.body.forall hst' hst hne t (Stmt.declared?_of_varName? hv) name hname he.symm

theorem spell_marks (r : Renaming) (h : Stmt.Distinct parameters body)
    (ht : t ∈ parameters ++ body.filterMap Stmt.varName?) :
    r.spell (r.marks parameters body) t = r.respell t := by
  by_cases ho : t.lexeme = r.old
  · suffices hmark : r.marks parameters body = r.chosen t by rw [hmark, respell]
    have hnamed := not_isNamed_of_declared h ht
    rw [ho] at hnamed
    rw [marks, hnamed, Bool.not_false, Bool.and_true, Bool.eq_iff_iff, List.any_eq_true]
    constructor
    · rintro ⟨t', ht', hchosen⟩
      obtain ⟨he, hchosen⟩ := Bool.and_eq_true_iff.1 hchosen
      rwa [eq_of_declared h ht ht' (ho.trans (eq_of_beq he).symm)]
    · intro hchosen
      exact ⟨t, ht, Bool.and_eq_true_iff.2 ⟨beq_iff_eq.2 ho, hchosen⟩⟩
  · rw [respell, spell_of_ne ho, spell_of_ne ho]

end
end Renaming

namespace Stmt
variable {ρ : Type}

mutual

/-- The names of local variables and parameters where they are declared, in the order of reading. -/
def locals (isLocal : Bool) : Stmt ρ → List Token
  | var name _ => if isLocal then [name] else []
  | block _ body => localsList true body
  | ifThen _ _ thenBranch => locals isLocal thenBranch
  | ifElse _ _ thenBranch elseBranch => locals isLocal thenBranch ++ locals isLocal elseBranch
  | while_ _ _ body => locals isLocal body
  | function declaration => localsFunction declaration
  | class_ _ _ _ methods => localsMethods methods
  | expression .. | print .. | return_ .. => []

def localsList (isLocal : Bool) : List (Stmt ρ) → List Token
  | [] => []
  | s :: ss => locals isLocal s ++ localsList isLocal ss

def localsFunction : Function ρ → List Token
  | .mk _ parameters body => parameters ++ localsList true body

def localsMethods : List (Function ρ) → List Token
  | [] => []
  | f :: fs => localsFunction f ++ localsMethods fs

end

/-- The names of local variables and parameters of a program. -/
def localNames (program : List (Stmt ρ)) : List Token := localsList false program

section
variable {r : Renaming} {T : Token → Prop}

theorem varName?_of_isPlain {st : RawStmt} (h : st.isPlain = true) : st.varName? = none := by
  cases st <;> first | rfl | cases h

mutual

theorem locals_renamed {s : Surroundings} (isLocal : Bool) (marks : List Bool) (st : RawStmt)
    (hr : st.Regular T) (hp : st.problems s = [])
    (hv : isLocal = true → ∀ t ∈ st.varName?, r.spell (marks.headD false) t = r.respell t) :
    locals isLocal ((st.bound s).renamed r marks) =
      (locals isLocal (st.bound s)).map r.respell := by
  have hplain {st : RawStmt} (h : st.isPlain = true) (_ : isLocal = true) :
      ∀ t ∈ st.varName?, r.spell (marks.headD false) t = r.respell t := by
    rw [varName?_of_isPlain h]
    exact fun _ h => nomatch h
  cases st with
  | expression line value => rfl
  | print line value => rfl
  | var name initializer =>
    cases isLocal with
    | false => rfl
    | true => exact congrArg (fun t => [t]) (hv rfl name rfl)
  | block line body =>
    refine localsList_renamed true _ body hr hp fun _ t ht => ?_
    rw [List.headD_cons, marks_boundList]
    exact Renaming.spell_marks r (distinct_block hr hp) ht
  | ifThen line condition thenBranch =>
    exact locals_renamed isLocal marks thenBranch hr.2.1 (List.append_eq_nil_iff.1 hp).2
      (hplain hr.2.2)
  | ifElse line condition thenBranch elseBranch =>
    obtain ⟨hpct, hpe⟩ := List.append_eq_nil_iff.1 hp
    have hthen := locals_renamed isLocal marks thenBranch hr.2.1.1
      (List.append_eq_nil_iff.1 hpct).2 (hplain hr.2.1.2)
    have helse := locals_renamed isLocal marks elseBranch hr.2.2.1 hpe (hplain hr.2.2.2)
    simp only [bound, renamed, locals, hthen, helse, List.map_append]
  | while_ line condition body =>
    exact locals_renamed isLocal marks body hr.2.1 (List.append_eq_nil_iff.1 hp).2 (hplain hr.2.2)
  | function f =>
    obtain ⟨name, parameters, body⟩ := f
    exact localsFunction_renamed marks (.mk name parameters body) hr (List.append_eq_nil_iff.1 hp).2
  | return_ keyword value => rfl
  | class_ line name superclass methods =>
    exact localsMethods_renamed _ methods hr.2.2 (List.append_eq_nil_iff.1 hp).2

theorem localsList_renamed {s : Surroundings} (isLocal : Bool) (marks : List Bool)
    (ss : List RawStmt) (hr : RegularList T ss) (hp : problemsList s ss = [])
    (hv : isLocal = true →
      ∀ t ∈ ss.filterMap varName?, r.spell (marks.headD false) t = r.respell t) :
    localsList isLocal (renamedList r marks (boundList s ss)) =
      (localsList isLocal (boundList s ss)).map r.respell := by
  cases ss with
  | nil => rfl
  | cons st ss =>
    obtain ⟨hps, hpss⟩ := List.append_eq_nil_iff.1 hp
    have hst := locals_renamed isLocal marks st hr.1 hps fun hl t ht =>
      hv hl t (List.mem_filterMap.2 ⟨st, List.mem_cons_self, ht⟩)
    have hss := localsList_renamed isLocal marks ss hr.2 hpss fun hl t ht => by
      obtain ⟨st', hst', ht⟩ := List.mem_filterMap.1 ht
      exact hv hl t (List.mem_filterMap.2 ⟨st', List.mem_cons_of_mem st hst', ht⟩)
    simp only [boundList, renamedList, localsList, hst, hss, List.map_append]

theorem localsFunction_renamed {s : Surroundings} {activation : Activation} (marks : List Bool)
    (f : RawFunction) (hr : FunctionRegular T f) (hp : functionProblems s activation f = []) :
    localsFunction (renamedFunction r marks (functionBound s activation f)) =
      (localsFunction (functionBound s activation f)).map r.respell := by
  obtain ⟨name, parameters, body⟩ := f
  have hdistinct := distinct_function hr.2.2 hp
  have hbody := localsList_renamed true (r.marks parameters body :: marks) body hr.2.2
    (List.append_eq_nil_iff.1 hp).2 fun _ t ht =>
      Renaming.spell_marks r hdistinct (List.mem_append_right parameters ht)
  have hparameters : parameters.map (r.spell (r.marks parameters body)) =
      parameters.map r.respell :=
    List.map_congr_left fun t ht => Renaming.spell_marks r hdistinct (List.mem_append_left _ ht)
  simp only [functionBound, renamedFunction, localsFunction, marks_boundList, List.map_append,
    hparameters, hbody]

theorem localsMethods_renamed {s : Surroundings} (marks : List Bool) (fs : List RawFunction)
    (hr : MethodsRegular T fs) (hp : methodsProblems s fs = []) :
    localsMethods (renamedMethods r marks (methodsBound s fs)) =
      (localsMethods (methodsBound s fs)).map r.respell := by
  cases fs with
  | nil => rfl
  | cons f fs =>
    obtain ⟨hpf, hpfs⟩ := List.append_eq_nil_iff.1 hp
    simp only [methodsBound, renamedMethods, localsMethods, localsFunction_renamed marks f hr.1 hpf,
      localsMethods_renamed marks fs hr.2 hpfs, List.map_append]

end

/-- The declarations that were chosen have the new name, and no others. -/
theorem localNames_renamed (r : Renaming) {program : List RawStmt} (h : Accepted program) :
    let bound := boundList .topLevel program
    localNames (renamedProgram r bound) = (localNames bound).map r.respell :=
  localsList_renamed false [] program h.regular h.accepted fun hl => nomatch hl

end
end Stmt
end Lox

import Lox.Proofs.Erasure
import Lox.Proofs.Input
import Lox.Proofs.Renaming
import Lox.Syntax.Nodes

/-! Renewal. A program with variables renamed is accepted as it was before, and read anew it
resolves as before: every use of a name finds its scope as many scopes out. -/

namespace Lox

namespace Expr
variable {r : Renaming} {marks : List Bool} {s s' : Surroundings}

/-- The renamed expression, read anew in the surroundings `s'`, resolves as it is, without
problems if there were none. -/
structure Renews (r : Renaming) (marks : List Bool) (s s' : Surroundings) (e : RawExpr) : Prop where
  bound : ((e.bound s).renamed r marks).raw.bound s' = (e.bound s).renamed r marks
  problems : e.problems s = [] → ((e.bound s).renamed r marks).raw.problems s' = []
  regular : ((e.bound s).renamed r marks).raw.Regular Token.Spelled

structure RenewsList (r : Renaming) (marks : List Bool) (s s' : Surroundings)
    (es : List RawExpr) : Prop where
  bound : boundList s' (rawList (renamedList r marks (boundList s es))) =
    renamedList r marks (boundList s es)
  problems : problemsList s es = [] →
    problemsList s' (rawList (renamedList r marks (boundList s es))) = []
  regular : RegularList Token.Spelled (rawList (renamedList r marks (boundList s es)))

mutual

theorem renews (hs : r.Surrounds marks s s') (e : RawExpr) (hr : e.Regular Token.Spelled)
    (hf : e.Regular (·.lexeme ≠ r.new)) : Renews r marks s s' e := by
  cases e with
  | literal line value => exact ⟨rfl, fun hp => hp, trivial⟩
  | grouping line inner =>
    have h := renews hs inner hr hf
    exact ⟨by simp [bound, renamed, raw, h.bound], h.problems, h.regular⟩
  | unary operator right =>
    have h := renews hs right hr.2 hf.2
    exact ⟨by simp [bound, renamed, raw, h.bound], h.problems, hr.1, h.regular⟩
  | binary left operator right =>
    have hl := renews hs left hr.1 hf.1
    have h := renews hs right hr.2.2 hf.2.2
    refine ⟨by simp [bound, renamed, raw, hl.bound, h.bound], fun hp => ?_, hl.regular, hr.2.1,
      h.regular⟩
    obtain ⟨hpl, hpr⟩ := List.append_eq_nil_iff.1 hp
    exact List.append_eq_nil_iff.2 ⟨hl.problems hpl, h.problems hpr⟩
  | logical left operator right =>
    have hl := renews hs left hr.1 hf.1
    have h := renews hs right hr.2.2 hf.2.2
    refine ⟨by simp [bound, renamed, raw, hl.bound, h.bound], fun hp => ?_, hl.regular, hr.2.1,
      h.regular⟩
    obtain ⟨hpl, hpr⟩ := List.append_eq_nil_iff.1 hp
    exact List.append_eq_nil_iff.2 ⟨hl.problems hpl, h.problems hpr⟩
  | read name _ =>
    refine ⟨?_, hs.misread_eq hf.good, Renaming.names_spell hr _⟩
    show Expr.read _ (s'.hops _) = _
    rw [hs.hops_eq hf.good]
    rfl
  | assign line name _ value =>
    have h := renews hs value hr.2 hf.2
    refine ⟨?_, h.problems, Renaming.names_spell hr.1 _, h.regular⟩
    show Expr.assign line _ (s'.hops _) (bound s' _) = _
    rw [hs.hops_eq hf.1.good, h.bound]
    rfl
  | call callee paren arguments =>
    have hc := renews hs callee hr.1 hf.1
    have h := renewsList hs arguments hr.2.2 hf.2.2
    refine ⟨by simp [bound, renamed, raw, hc.bound, h.bound], fun hp => ?_, hc.regular, hr.2.1,
      h.regular⟩
    obtain ⟨hpc, hpa⟩ := List.append_eq_nil_iff.1 hp
    exact List.append_eq_nil_iff.2 ⟨hc.problems hpc, h.problems hpa⟩
  | get object name =>
    have h := renews hs object hr.1 hf.1
    exact ⟨by simp [bound, renamed, raw, h.bound], h.problems, h.regular, hr.2⟩
  | set line object name value =>
    have ho := renews hs object hr.1 hf.1
    have h := renews hs value hr.2.2 hf.2.2
    refine ⟨by simp [bound, renamed, raw, ho.bound, h.bound], fun hp => ?_, ho.regular, hr.2.1,
      h.regular⟩
    obtain ⟨hpv, hpo⟩ := List.append_eq_nil_iff.1 hp
    exact List.append_eq_nil_iff.2 ⟨h.problems hpv, ho.problems hpo⟩
  | this keyword _ =>
    have hk := hs.hops_keyword (hr.2 ▸ hr.1 (.inr ⟨_, hr.2⟩))
    refine ⟨by simp [bound, renamed, raw, hs.context, hk], fun hp => ?_, hr⟩
    simpa [bound, renamed, raw, problems, Surroundings.misusedThis, hs.context] using hp
  | super keyword _ method =>
    have hk := hs.hops_keyword (hr.1.2 ▸ hr.1.1 (.inr ⟨_, hr.1.2⟩))
    refine ⟨by simp [bound, renamed, raw, hk], fun hp => ?_, hr⟩
    simpa [bound, renamed, raw, problems, Surroundings.misusedSuper, hs.context] using hp

theorem renewsList (hs : r.Surrounds marks s s') (es : List RawExpr)
    (hr : RegularList Token.Spelled es) (hf : RegularList (·.lexeme ≠ r.new) es) :
    RenewsList r marks s s' es := by
  cases es with
  | nil => exact ⟨rfl, fun hp => hp, trivial⟩
  | cons e es =>
    have he := renews hs e hr.1 hf.1
    have h := renewsList hs es hr.2 hf.2
    refine ⟨by simp [boundList, renamedList, rawList, he.bound, h.bound], fun hp => ?_, he.regular,
      h.regular⟩
    obtain ⟨hpe, hpes⟩ := List.append_eq_nil_iff.1 hp
    exact List.append_eq_nil_iff.2 ⟨he.problems hpe, h.problems hpes⟩

end

theorem renews? (hs : r.Surrounds marks s s') (e : Option RawExpr)
    (hr : Regular? Token.Spelled e) (hf : Regular? (·.lexeme ≠ r.new) e) :
    let b := (e.map (bound s)).map (renamed r marks)
    (b.map raw).map (bound s') = b ∧ (problems? s e = [] → problems? s' (b.map raw) = []) ∧
      Regular? Token.Spelled (b.map raw) := by
  cases e with
  | none => exact ⟨rfl, fun hp => hp, fun _ h => nomatch h⟩
  | some e =>
    have h := renews hs e (hr e rfl) (hf e rfl)
    refine ⟨congrArg some h.bound, h.problems, ?_⟩
    rintro a ⟨⟩
    exact h.regular

end Expr

namespace Stmt
variable {r : Renaming} {marks : List Bool} {s s' : Surroundings} {name : String}

theorem isNamed_bound (s : Surroundings) (st : RawStmt) :
    (st.bound s).isNamed name = st.isNamed name := by
  cases st with
  | function f => cases f; rfl
  | _ => rfl

theorem varName?_bound (s : Surroundings) (st : RawStmt) :
    (st.bound s).varName? = st.varName? := by
  cases st with
  | function f => cases f; rfl
  | _ => rfl

theorem any_isNamed_boundList (s : Surroundings) (ss : List RawStmt) :
    (boundList s ss).any (isNamed name) = ss.any (isNamed name) := by
  induction ss generalizing s with
  | nil => rfl
  | cons st ss ih => rw [boundList, List.any_cons, List.any_cons, isNamed_bound, ih]

theorem filterMap_varName?_boundList (s : Surroundings) (ss : List RawStmt) :
    (boundList s ss).filterMap varName? = ss.filterMap varName? := by
  induction ss generalizing s with
  | nil => rfl
  | cons st ss ih => rw [boundList, List.filterMap_cons, List.filterMap_cons, varName?_bound, ih]

theorem marks_boundList (r : Renaming) (parameters : List Token) (s : Surroundings)
    (ss : List RawStmt) : r.marks parameters (boundList s ss) = r.marks parameters ss := by
  unfold Renaming.marks
  rw [any_isNamed_boundList, filterMap_varName?_boundList]

theorem not_isNamed_of_isPlain {ρ : Type} {st : Stmt ρ} (h : st.isPlain = true) :
    st.isNamed name = false := by
  cases st <;> first | rfl | cases h

theorem isPlain_renamed (marks : List Bool) (s : Surroundings) (st : RawStmt) :
    ((st.bound s).renamed r marks).raw.isPlain = st.isPlain := by
  cases st with
  | function f => cases f; rfl
  | _ => rfl

structure Renews (r : Renaming) (marks : List Bool) (s s' : Surroundings)
    (st : RawStmt) : Prop where
  bound : ((st.bound s).renamed r marks).raw.bound s' = (st.bound s).renamed r marks
  problems : st.problems s = [] → ((st.bound s).renamed r marks).raw.problems s' = []
  regular : ((st.bound s).renamed r marks).raw.Regular Token.Spelled
  after : r.Surrounds marks (after s st) (after s' ((st.bound s).renamed r marks).raw)

structure RenewsList (r : Renaming) (marks : List Bool) (s s' : Surroundings)
    (ss : List RawStmt) : Prop where
  bound : boundList s' (rawList (renamedList r marks (boundList s ss))) =
    renamedList r marks (boundList s ss)
  problems : problemsList s ss = [] →
    problemsList s' (rawList (renamedList r marks (boundList s ss))) = []
  regular : RegularList Token.Spelled (rawList (renamedList r marks (boundList s ss)))

structure RenewsFunction (r : Renaming) (marks : List Bool) (s s' : Surroundings)
    (activation : Activation) (f : RawFunction) : Prop where
  bound : functionBound s' activation
      (rawFunction (renamedFunction r marks (functionBound s activation f))) =
    renamedFunction r marks (functionBound s activation f)
  problems : functionProblems s activation f = [] → functionProblems s' activation
    (rawFunction (renamedFunction r marks (functionBound s activation f))) = []
  regular : FunctionRegular Token.Spelled
    (rawFunction (renamedFunction r marks (functionBound s activation f)))

structure RenewsMethods (r : Renaming) (marks : List Bool) (s s' : Surroundings)
    (fs : List RawFunction) : Prop where
  bound : methodsBound s' (rawFunctions (renamedMethods r marks (methodsBound s fs))) =
    renamedMethods r marks (methodsBound s fs)
  problems : methodsProblems s fs = [] → methodsProblems s'
    (rawFunctions (renamedMethods r marks (methodsBound s fs))) = []
  regular : MethodsRegular Token.Spelled
    (rawFunctions (renamedMethods r marks (methodsBound s fs)))

mutual

theorem renews {marks : List Bool} {s s' : Surroundings} (hs : r.Surrounds marks s s')
    (st : RawStmt) (hr : st.Regular Token.Spelled) (hf : st.Regular (·.lexeme ≠ r.new))
    (hn : marks.headD false = true → st.isNamed r.old = false) :
    Renews r marks s s' st := by
  have hplain {s : Surroundings} {st : RawStmt} (h : st.isPlain = true) :
      ((st.bound s).renamed r marks).raw.isPlain = true :=
    (isPlain_renamed marks s st).trans h
  cases st with
  | expression line value =>
    have h := Expr.renews hs value hr hf
    exact ⟨by simp [bound, renamed, raw, h.bound], h.problems, h.regular, hs⟩
  | print line value =>
    have h := Expr.renews hs value hr hf
    exact ⟨by simp [bound, renamed, raw, h.bound], h.problems, h.regular, hs⟩
  | var name initializer =>
    have hinner := (hs.bind hf.1.good false).initializing name
    obtain ⟨hbound, hproblems, hregular⟩ := Expr.renews? hinner initializer hr.2 hf.2
    refine ⟨congrArg (Stmt.var _) hbound, fun hp => ?_, ⟨Renaming.names_spell hr.1 _, hregular⟩,
      hs.bind hf.1.good true⟩
    obtain ⟨hpd, hpi⟩ := List.append_eq_nil_iff.1 hp
    exact List.append_eq_nil_iff.2 ⟨hs.redeclared_eq hf.1.good hpd, hproblems hpi⟩
  | block line body =>
    let mark := r.marks [] (boundList (s.push []) body)
    have hmark : mark = r.marks [] body := marks_boundList r [] _ body
    have hinner : r.Surrounds (mark :: marks) (s.push []) (s'.push []) :=
      hs.push (Renaming.respells_nil r mark)
    have h := renewsList hinner body hr hf fun hm => Renaming.not_isNamed_of_marks (hmark ▸ hm)
    exact ⟨congrArg (Stmt.block line) h.bound, h.problems, h.regular, hs⟩
  | ifThen line condition thenBranch =>
    have hc := Expr.renews hs condition hr.1 hf.1
    have h := renews hs thenBranch hr.2.1 hf.2.1 fun _ =>
      not_isNamed_of_isPlain hr.2.2
    refine ⟨by simp [bound, renamed, raw, hc.bound, h.bound], fun hp => ?_,
      ⟨hc.regular, h.regular, hplain hr.2.2⟩, h.after⟩
    obtain ⟨hpc, hpt⟩ := List.append_eq_nil_iff.1 hp
    exact List.append_eq_nil_iff.2 ⟨hc.problems hpc, h.problems hpt⟩
  | ifElse line condition thenBranch elseBranch =>
    have hc := Expr.renews hs condition hr.1 hf.1
    have ht := renews hs thenBranch hr.2.1.1 hf.2.1.1 fun _ =>
      not_isNamed_of_isPlain hr.2.1.2
    have h := renews ht.after elseBranch hr.2.2.1 hf.2.2.1 fun _ =>
      not_isNamed_of_isPlain hr.2.2.2
    refine ⟨by simp [bound, renamed, raw, hc.bound, ht.bound, h.bound], fun hp => ?_,
      ⟨hc.regular, ⟨ht.regular, hplain hr.2.1.2⟩, h.regular, hplain hr.2.2.2⟩, h.after⟩
    obtain ⟨hpct, hpe⟩ := List.append_eq_nil_iff.1 hp
    obtain ⟨hpc, hpt⟩ := List.append_eq_nil_iff.1 hpct
    exact List.append_eq_nil_iff.2
      ⟨List.append_eq_nil_iff.2 ⟨hc.problems hpc, ht.problems hpt⟩, h.problems hpe⟩
  | while_ line condition body =>
    have hc := Expr.renews hs condition hr.1 hf.1
    have h := renews hs body hr.2.1 hf.2.1 fun _ => not_isNamed_of_isPlain hr.2.2
    refine ⟨by simp [bound, renamed, raw, hc.bound, h.bound], fun hp => ?_,
      ⟨hc.regular, h.regular, hplain hr.2.2⟩, h.after⟩
    obtain ⟨hpc, hpb⟩ := List.append_eq_nil_iff.1 hp
    exact List.append_eq_nil_iff.2 ⟨hc.problems hpc, h.problems hpb⟩
  | function f =>
    obtain ⟨name, parameters, body⟩ := f
    have hname : r.spell (marks.headD false) name = name := Renaming.spell_kept hn
    have hinner := hs.bind hf.1.good true
    rw [hname] at hinner
    have h := renewsFunction hinner .function (.mk name parameters body) hr hf
    refine ⟨congrArg Stmt.function h.bound, fun hp => ?_, h.regular, hinner⟩
    obtain ⟨hpd, hpf⟩ := List.append_eq_nil_iff.1 hp
    have hd := hs.redeclared_eq hf.1.good hpd
    rw [hname] at hd
    exact List.append_eq_nil_iff.2 ⟨hd, h.problems hpf⟩
  | return_ keyword value =>
    obtain ⟨hbound, hproblems, hregular⟩ := Expr.renews? hs value hr.2 hf.2
    refine ⟨congrArg (Stmt.return_ keyword) hbound, fun hp => ?_, ⟨hr.1, hregular⟩, hs⟩
    obtain ⟨hpm, hpv⟩ := List.append_eq_nil_iff.1 hp
    refine List.append_eq_nil_iff.2 ⟨?_, hproblems hpv⟩
    simpa [bound, renamed, raw, Surroundings.misplacedReturn, hs.activation] using hpm
  | class_ line name superclass methods =>
    have hname : r.spell (marks.headD false) name = name := Renaming.spell_kept hn
    have hinner := hs.bind hf.1.good true
    rw [hname] at hinner
    have hd (hpd : s.redeclared name = []) := hs.redeclared_eq hf.1.good hpd
    rw [hname] at hd
    have h := renewsMethods (hinner.ofMethods superclass.isSome) methods hr.2.2 hf.2.2
    cases superclass with
    | none =>
      refine ⟨congrArg (Stmt.class_ line name none) h.bound, fun hp => ?_,
        ⟨hr.1, (fun _ hc => nomatch hc), h.regular⟩, hinner⟩
      obtain ⟨hpdc, hpm⟩ := List.append_eq_nil_iff.1 hp
      have hpd := (List.append_eq_nil_iff.1 hpdc).1
      exact List.append_eq_nil_iff.2 ⟨List.append_eq_nil_iff.2 ⟨hd hpd, rfl⟩, h.problems hpm⟩
    | some c =>
      have hc := hf.2.1 c rfl
      refine ⟨?_, fun hp => ?_, ⟨hr.1, ?_, h.regular⟩, hinner⟩
      · have habove : Superclass.bound (s'.bind name.lexeme true)
            ⟨r.spell _ c.name, ()⟩ = ((c.bound (s.bind name.lexeme true)).renamed r marks) :=
          congrArg (Superclass.mk _) (hinner.hops_eq hc.good)
        exact congr (congrArg (fun c => Stmt.class_ line name (some c)) habove) h.bound
      · obtain ⟨hpdc, hpm⟩ := List.append_eq_nil_iff.1 hp
        obtain ⟨hpd, hpc⟩ := List.append_eq_nil_iff.1 hpdc
        obtain ⟨hpi, hpr⟩ := List.append_eq_nil_iff.1 hpc
        have hi := Renaming.selfInherited_spell hf.1.good hpi
        have hread := hinner.misread_eq hc.good hpr
        refine List.append_eq_nil_iff.2 ⟨List.append_eq_nil_iff.2 ⟨hd hpd, ?_⟩, h.problems hpm⟩
        exact List.append_eq_nil_iff.2 ⟨hi _, hread⟩
      · rintro _ ⟨⟩
        exact Renaming.names_spell (hr.2.1 c rfl) _

theorem renewsList {marks : List Bool} {s s' : Surroundings} (hs : r.Surrounds marks s s')
    (ss : List RawStmt) (hr : RegularList Token.Spelled ss)
    (hf : RegularList (·.lexeme ≠ r.new) ss)
    (hn : marks.headD false = true → ss.any (isNamed r.old) = false) :
    RenewsList r marks s s' ss := by
  cases ss with
  | nil => exact ⟨rfl, fun hp => hp, trivial⟩
  | cons st ss =>
    have hns (hm : marks.headD false = true) := Bool.or_eq_false_iff.1 (hn hm)
    have hst := renews hs st hr.1 hf.1 fun hm => (hns hm).1
    have h := renewsList hst.after ss hr.2 hf.2 fun hm => (hns hm).2
    refine ⟨by simp [boundList, renamedList, rawList, hst.bound, h.bound], fun hp => ?_,
      hst.regular, h.regular⟩
    obtain ⟨hps, hpss⟩ := List.append_eq_nil_iff.1 hp
    exact List.append_eq_nil_iff.2 ⟨hst.problems hps, h.problems hpss⟩

theorem renewsFunction {marks : List Bool} {s s' : Surroundings} (hs : r.Surrounds marks s s')
    (activation : Activation) (f : RawFunction) (hr : FunctionRegular Token.Spelled f)
    (hf : FunctionRegular (·.lexeme ≠ r.new) f) :
    RenewsFunction r marks s s' activation f := by
  obtain ⟨name, parameters, body⟩ := f
  have hparameters : ∀ p ∈ parameters, p.lexeme ≠ r.new := fun p hp => (hf.2.1 p hp).good
  let mark := r.marks parameters (boundList (s.entering activation parameters) body)
  have hmark : mark = r.marks parameters body := marks_boundList r parameters _ body
  have hinner := (hs.inActivation activation).push (Renaming.respells_nil r mark)
  have h := renewsList (hs.entering mark activation hparameters) body hr.2.2 hf.2.2
    fun hm => Renaming.not_isNamed_of_marks (hmark ▸ hm)
  refine ⟨congrArg (Function.mk name _) h.bound, fun hp => ?_, hr.1, ?_, h.regular⟩
  · obtain ⟨hpp, hpb⟩ := List.append_eq_nil_iff.1 hp
    exact List.append_eq_nil_iff.2 ⟨hinner.repeatedParameters hparameters hpp, h.problems hpb⟩
  · intro p hp
    obtain ⟨q, hq, rfl⟩ := List.mem_map.1 hp
    exact Renaming.names_spell (hr.2.1 q hq) _

theorem renewsMethods {marks : List Bool} {s s' : Surroundings} (hs : r.Surrounds marks s s')
    (fs : List RawFunction) (hr : MethodsRegular Token.Spelled fs)
    (hf : MethodsRegular (·.lexeme ≠ r.new) fs) :
    RenewsMethods r marks s s' fs := by
  cases fs with
  | nil => exact ⟨rfl, fun hp => hp, trivial⟩
  | cons f fs =>
    have hactivation : Resolver.methodActivation (rawFunction (renamedFunction r marks
        (functionBound s (Resolver.methodActivation f) f))) = Resolver.methodActivation f := by
      cases f
      rfl
    have hone := renewsFunction hs (Resolver.methodActivation f) f hr.1 hf.1
    have h := renewsMethods hs fs hr.2 hf.2
    refine ⟨?_, fun hp => ?_, hone.regular, h.regular⟩
    · simp [methodsBound, renamedMethods, rawFunctions, hactivation, hone.bound, h.bound]
    · obtain ⟨hpf, hpfs⟩ := List.append_eq_nil_iff.1 hp
      refine List.append_eq_nil_iff.2 ⟨?_, h.problems hpfs⟩
      rw [hactivation]
      exact hone.problems hpf

end

/-- A renamed program is accepted, and every use of a name resolves as before. -/
theorem accepted_renamed (r : Renaming) {program : List RawStmt} (h : Accepted program)
    (hf : RegularList (·.lexeme ≠ r.new) program) :
    let renamed := renamedProgram r (boundList .topLevel program)
    Accepted (rawList renamed) ∧ boundList .topLevel (rawList renamed) = renamed := by
  have hs : r.Surrounds [] .topLevel .topLevel := ⟨.nil, rfl, rfl, rfl⟩
  have hrenews := renewsList hs program h.regular hf fun hm => nomatch hm
  exact ⟨⟨hrenews.regular, hrenews.problems h.accepted⟩, hrenews.bound⟩

end Stmt

/-- Where the use of a name stands, and how many scopes out it finds its own. -/
def Reference.distance (use : Reference) : Position × Nat := (use.token.position, use.hops)

def Node.distance? (n : Node Hops) : Option (Position × Nat) := n.reference?.map Reference.distance

namespace Expr
variable (r : Renaming) (marks : List Bool)

mutual

theorem distances_renamed (e : BoundExpr) :
    (e.renamed r marks).nodes.filterMap Node.distance? = e.nodes.filterMap Node.distance? := by
  cases e with
  | literal line value => rfl
  | grouping line inner => exact distances_renamed inner
  | unary operator right => exact distances_renamed right
  | binary left operator right | logical left operator right =>
    simp only [renamed, nodes, List.cons_append, List.filterMap_cons, List.filterMap_append,
      distances_renamed left, distances_renamed right]
    rfl
  | read name target => cases target <;> rfl
  | assign line name target value =>
    cases target <;>
      simp only [renamed, nodes, List.filterMap_cons, distances_renamed value] <;> rfl
  | call callee paren arguments =>
    simp only [renamed, nodes, List.cons_append, List.filterMap_cons, List.filterMap_append,
      distances_renamed callee, distances_renamedList arguments]
    rfl
  | get object name => exact distances_renamed object
  | set line object name value =>
    simp only [renamed, nodes, List.cons_append, List.filterMap_cons, List.filterMap_append,
      distances_renamed object, distances_renamed value]
    rfl
  | this keyword target => rfl
  | super keyword target method => rfl

theorem distances_renamedList (es : List BoundExpr) :
    (nodesList (renamedList r marks es)).filterMap Node.distance? =
      (nodesList es).filterMap Node.distance? := by
  cases es with
  | nil => rfl
  | cons e es =>
    rw [renamedList, nodesList, nodesList, List.filterMap_append, List.filterMap_append,
      distances_renamed e, distances_renamedList es]

end

theorem distances_renamed? (e : Option BoundExpr) :
    (nodes? (e.map (renamed r marks))).filterMap Node.distance? =
      (nodes? e).filterMap Node.distance? := by
  cases e with
  | none => rfl
  | some e => exact distances_renamed r marks e

end Expr
namespace Stmt
variable (r : Renaming)

mutual

theorem distances_renamed (marks : List Bool) (st : BoundStmt) :
    (st.renamed r marks).nodes.filterMap Node.distance? =
      st.nodes.filterMap Node.distance? := by
  cases st with
  | expression line value => exact Expr.distances_renamed r marks value
  | print line value => exact Expr.distances_renamed r marks value
  | var name initializer => exact Expr.distances_renamed? r marks initializer
  | block line body => exact distances_renamedList _ body
  | ifThen line condition thenBranch =>
    simp only [renamed, nodes, List.cons_append, List.filterMap_cons, List.filterMap_append,
      Expr.distances_renamed r marks condition, distances_renamed marks thenBranch]
    rfl
  | ifElse line condition thenBranch elseBranch =>
    simp only [renamed, nodes, List.cons_append, List.filterMap_cons, List.filterMap_append,
      Expr.distances_renamed r marks condition, distances_renamed marks thenBranch,
      distances_renamed marks elseBranch]
    rfl
  | while_ line condition body =>
    simp only [renamed, nodes, List.cons_append, List.filterMap_cons, List.filterMap_append,
      Expr.distances_renamed r marks condition, distances_renamed marks body]
    rfl
  | function f => exact distances_renamedFunction marks f
  | return_ keyword value => exact Expr.distances_renamed? r marks value
  | class_ line name superclass methods =>
    have habove : (Expr.nodes? ((superclass.map (Superclass.renamed r marks)).map
        Superclass.expr)).filterMap Node.distance? =
          (Expr.nodes? (superclass.map Superclass.expr)).filterMap Node.distance? := by
      cases superclass with
      | none => rfl
      | some c => exact Expr.distances_renamed r marks c.expr
    simp only [renamed, nodes, List.cons_append, List.filterMap_cons, List.filterMap_append,
      habove, distances_renamedMethods _ methods]
    rfl

theorem distances_renamedList (marks : List Bool) (ss : List BoundStmt) :
    (nodesList (renamedList r marks ss)).filterMap Node.distance? =
      (nodesList ss).filterMap Node.distance? := by
  cases ss with
  | nil => rfl
  | cons st ss =>
    rw [renamedList, nodesList, nodesList, List.filterMap_append, List.filterMap_append,
      distances_renamed marks st,
      distances_renamedList marks ss]

theorem distances_renamedFunction (marks : List Bool) (f : BoundFunction) :
    (functionNodes (renamedFunction r marks f)).filterMap Node.distance? =
      (functionNodes f).filterMap Node.distance? := by
  obtain ⟨name, parameters, body⟩ := f
  exact distances_renamedList _ body

theorem distances_renamedMethods (marks : List Bool) (fs : List BoundFunction) :
    (functionNodesList (renamedMethods r marks fs)).filterMap Node.distance? =
      (functionNodesList fs).filterMap Node.distance? := by
  cases fs with
  | nil => rfl
  | cons f fs =>
    rw [renamedMethods, functionNodesList, functionNodesList, List.filterMap_append,
      List.filterMap_append, distances_renamedFunction marks f,
      distances_renamedMethods marks fs]

end

/-- Renamed or not, uses stand where they stood and find their scopes as far out. -/
theorem distances_renamedProgram (program : List BoundStmt) :
    (references (renamedProgram r program)).map Reference.distance =
      (references program).map Reference.distance := by
  unfold references
  rw [List.map_filterMap, List.map_filterMap]
  exact distances_renamedList r [] program

end Stmt

end Lox

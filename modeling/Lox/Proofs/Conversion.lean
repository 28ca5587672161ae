import Lox.Proofs.Aliases
import Lox.Proofs.Declarations
import Lox.Proofs.Equivalence
import Lox.Proofs.Splitting

/-! Conversion. A program and the one with its variables renamed run in parallel, from the same
session to the same output and the same messages. -/

namespace Lox

namespace Expr
variable {T T' : Token → Prop}

mutual

theorem regular_bound (s : Surroundings) (e : RawExpr) (h : e.Regular T) (h' : e.Regular T') :
    (e.bound s).Regular fun t => T t ∧ T' t := by
  cases e with
  | literal line value => trivial
  | grouping line inner => exact regular_bound s inner h h'
  | unary operator right => exact ⟨⟨h.1, h'.1⟩, regular_bound s right h.2 h'.2⟩
  | binary left operator right =>
    exact ⟨regular_bound s left h.1 h'.1, ⟨h.2.1, h'.2.1⟩, regular_bound s right h.2.2 h'.2.2⟩
  | logical left operator right =>
    exact ⟨regular_bound s left h.1 h'.1, ⟨h.2.1, h'.2.1⟩, regular_bound s right h.2.2 h'.2.2⟩
  | read name _ => exact ⟨⟨h.good, h'.good⟩, h.kind⟩
  | assign line name _ value =>
    exact ⟨⟨⟨h.1.good, h'.1.good⟩, h.1.kind⟩, regular_bound s value h.2 h'.2⟩
  | call callee paren arguments =>
    exact ⟨regular_bound s callee h.1 h'.1, ⟨h.2.1, h'.2.1⟩,
      regularList_boundList s arguments h.2.2 h'.2.2⟩
  | get object name =>
    exact ⟨regular_bound s object h.1 h'.1, ⟨⟨h.2.good, h'.2.good⟩, h.2.kind⟩⟩
  | set line object name value =>
    exact ⟨regular_bound s object h.1 h'.1, ⟨⟨h.2.1.good, h'.2.1.good⟩, h.2.1.kind⟩,
      regular_bound s value h.2.2 h'.2.2⟩
  | this keyword _ => exact ⟨⟨h.1, h'.1⟩, h.2⟩
  | super keyword _ method =>
    exact ⟨⟨⟨h.1.1, h'.1.1⟩, h.1.2⟩, ⟨⟨h.2.good, h'.2.good⟩, h.2.kind⟩⟩

theorem regularList_boundList (s : Surroundings) (es : List RawExpr) (h : RegularList T es)
    (h' : RegularList T' es) : RegularList (fun t => T t ∧ T' t) (boundList s es) := by
  cases es with
  | nil => trivial
  | cons e es =>
    exact ⟨regular_bound s e h.1 h'.1, regularList_boundList s es h.2 h'.2⟩

end

theorem regular?_bound (s : Surroundings) (e : Option RawExpr) (h : Regular? T e)
    (h' : Regular? T' e) : Regular? (fun t => T t ∧ T' t) (e.map (bound s)) := by
  cases e with
  | none => exact fun _ hb => nomatch hb
  | some e =>
    rintro b ⟨⟩
    exact regular_bound s e (h e rfl) (h' e rfl)

end Expr

namespace Stmt
variable {T T' : Token → Prop}

theorem isPlain_bound (s : Surroundings) (st : RawStmt) : (st.bound s).isPlain = st.isPlain := by
  cases st with
  | function f => cases f; rfl
  | _ => rfl

mutual

theorem regular_bound (s : Surroundings) (st : RawStmt) (h : st.Regular T) (h' : st.Regular T') :
    (st.bound s).Regular fun t => T t ∧ T' t := by
  cases st with
  | expression line value => exact Expr.regular_bound s value h h'
  | print line value => exact Expr.regular_bound s value h h'
  | var name initializer =>
    exact ⟨⟨⟨h.1.good, h'.1.good⟩, h.1.kind⟩, Expr.regular?_bound _ initializer h.2 h'.2⟩
  | block line body => exact regularList_boundList _ body h h'
  | ifThen line condition thenBranch =>
    exact ⟨Expr.regular_bound s condition h.1 h'.1, regular_bound s thenBranch h.2.1 h'.2.1,
      (isPlain_bound s thenBranch).trans h.2.2⟩
  | ifElse line condition thenBranch elseBranch =>
    exact ⟨Expr.regular_bound s condition h.1 h'.1,
      ⟨regular_bound s thenBranch h.2.1.1 h'.2.1.1, (isPlain_bound s thenBranch).trans h.2.1.2⟩,
      regular_bound _ elseBranch h.2.2.1 h'.2.2.1, (isPlain_bound _ elseBranch).trans h.2.2.2⟩
  | while_ line condition body =>
    exact ⟨Expr.regular_bound s condition h.1 h'.1, regular_bound s body h.2.1 h'.2.1,
      (isPlain_bound s body).trans h.2.2⟩
  | function f =>
    obtain ⟨name, parameters, body⟩ := f
    exact functionRegular_functionBound _ .function (.mk name parameters body) h h'
  | return_ keyword value => exact ⟨⟨h.1, h'.1⟩, Expr.regular?_bound s value h.2 h'.2⟩
  | class_ line name superclass methods =>
    refine ⟨⟨⟨h.1.good, h'.1.good⟩, h.1.kind⟩, ?_,
      methodsRegular_methodsBound _ methods h.2.2 h'.2.2⟩
    intro c hc
    obtain ⟨c, hsuperclass, rfl⟩ := Option.map_eq_some_iff.1 hc
    have hname := h.2.1 c hsuperclass
    exact ⟨⟨hname.good, (h'.2.1 c hsuperclass).good⟩, hname.kind⟩

theorem regularList_boundList (s : Surroundings) (ss : List RawStmt) (h : RegularList T ss)
    (h' : RegularList T' ss) : RegularList (fun t => T t ∧ T' t) (boundList s ss) := by
  cases ss with
  | nil => trivial
  | cons st ss =>
    exact ⟨regular_bound s st h.1 h'.1, regularList_boundList (after s st) ss h.2 h'.2⟩

theorem functionRegular_functionBound (s : Surroundings) (activation : Activation)
    (f : RawFunction) (h : FunctionRegular T f) (h' : FunctionRegular T' f) :
    FunctionRegular (fun t => T t ∧ T' t) (functionBound s activation f) := by
  obtain ⟨name, parameters, body⟩ := f
  refine ⟨⟨⟨h.1.good, h'.1.good⟩, h.1.kind⟩, fun p hp => ?_,
    regularList_boundList _ body h.2.2 h'.2.2⟩
  have hname := h.2.1 p hp
  exact ⟨⟨hname.good, (h'.2.1 p hp).good⟩, hname.kind⟩

theorem methodsRegular_methodsBound (s : Surroundings) (fs : List RawFunction)
    (h : MethodsRegular T fs) (h' : MethodsRegular T' fs) :
    MethodsRegular (fun t => T t ∧ T' t) (methodsBound s fs) := by
  cases fs with
  | nil => trivial
  | cons f fs =>
    exact ⟨functionRegular_functionBound s _ f h.1 h'.1,
      methodsRegular_methodsBound s fs h.2 h'.2⟩

end
end Stmt

namespace Renaming
variable {r : Renaming}

namespace Mirror
open Eval
variable {s t : r.Mirror} {marks : List Bool}

/-- Runs as its renaming does, for all marks that can be around it. -/
def EvaluateMirrored (r : Renaming) (ev : BoundExpr → Eval Value) : Prop :=
  ∀ (s : r.Mirror) (marks : List Bool) (e : BoundExpr), e.Regular r.Admits → s.Stands marks →
    s.Runs (fun _ => ev e) (ev (e.renamed r marks)) Alike

/-- A declaration of a function or a class has a name to keep. -/
def ExecuteMirrored (r : Renaming) (ex : BoundStmt → Eval Completion) : Prop :=
  ∀ (s : r.Mirror) (marks : List Bool) (st : BoundStmt),
    st.Regular r.Admits → (marks.headD false = true → st.isNamed r.old = false) →
      s.Stands marks →
        s.Runs (fun _ => ex st) (ex (st.renamed r marks)) (Parallel.Ends (P := r.aliases))

theorem forall₂_renamedExprs {es : List BoundExpr} (h : Expr.RegularList r.Admits es) :
    List.Forall₂ (fun e e' => e' = e.renamed r marks ∧ e.Regular r.Admits) es
      (Expr.renamedList r marks es) := by
  induction es with
  | nil => exact .nil
  | cons e es ih => exact .cons ⟨rfl, h.1⟩ (ih h.2)

theorem forall₂_renamedStmts {ss : List BoundStmt}
    (h : Stmt.RegularList r.Admits ss)
    (hn : marks.headD false = true → ss.any (Stmt.isNamed r.old) = false) :
    List.Forall₂
      (fun st st' => st' = st.renamed r marks ∧ st.Regular r.Admits ∧
        (marks.headD false = true → st.isNamed r.old = false)) ss
      (Stmt.renamedList r marks ss) := by
  induction ss with
  | nil => exact .nil
  | cons st ss ih =>
    have hns (hm : marks.headD false = true) := Bool.or_eq_false_iff.1 (hn hm)
    exact .cons ⟨rfl, h.1, fun hm => (hns hm).1⟩ (ih h.2 fun hm => (hns hm).2)

section forms
variable {ev : BoundExpr → Eval Value} {ex : BoundStmt → Eval Completion}

theorem executeBlock_runs (hex : ExecuteMirrored r ex) {p : Nat} (hp : s.marking.Lies marks p)
    {mark : Bool} {b c : Bindings Value} (hb : r.Aliases mark (Alike s) b c)
    {body : List BoundStmt} (hbody : Stmt.RegularList r.Admits body)
    (hn : mark = true → body.any (Stmt.isNamed r.old) = false) :
    s.Runs (fun _ => executeBlock ex p b body)
      (executeBlock ex p c (Stmt.renamedList r (mark :: marks) body))
      (Parallel.Ends (P := r.aliases)) := by
  refine (newEnvironment_runs hp hb).bind fun t e _ ht he => ?_
  obtain ⟨rfl, hlies⟩ := he
  refine inEnvironment_runs e (fun _ _ _ _ _ h => h) ?_
  have hstands : (t.moved e t.left.callDepth).Stands (mark :: marks) := hlies
  refine Parallel.executeAll_runs (forall₂_renamedStmts hbody hn) fun u st st' hu hst => ?_
  obtain ⟨rfl, hregular, hnamed⟩ := hst
  exact hex u _ st hregular hnamed (hstands.later hu)

theorem apply_runs (hex : ExecuteMirrored r ex) {f g : Closure}
    (hf : r.SameCode s.marking [] f g) {vs ws : List Value}
    (hvs : List.Forall₂ (Alike s) vs ws) :
    s.Runs (fun _ => apply ex f vs) (apply ex g ws) Alike := by
  obtain ⟨marks, hl, hregular, hdeclaration⟩ := hf.declaration
  unfold apply
  rw [hdeclaration, ← hf.environment, ← hf.isInitializer]
  cases hd : f.declaration with
  | mk name parameters body =>
    rw [hd] at hregular
    have hnames : ∀ x ∈ parameters.map Token.lexeme,
        r.marks parameters body = true → x ≠ r.new := by
      intro x hx _
      obtain ⟨p, hp, rfl⟩ := List.mem_map.1 hx
      exact (hregular.2.1 p hp).good.2
    have hspelled : (parameters.map (r.spell (r.marks parameters body))).map Token.lexeme =
        (parameters.map Token.lexeme).map (r.spelling (r.marks parameters body)) := by
      rw [List.map_map, List.map_map]
      rfl
    have harguments := aliases_ofPairs hnames hvs
    rw [← hspelled] at harguments
    refine (executeBlock_runs hex hl harguments hregular.2.2 not_isNamed_of_marks).bind
      fun t c d ht hc => ?_
    cases f.isInitializer with
    | true =>
      refine Parallel.Runs.get (P := r.aliases) ?_
      have hthis := keyword_runs (x := pure) (y := pure) (Q := Alike) "this" (k := .this) rfl
        (hl.mono ht.marking) 0 fun v w hv => .pure hv
      simp only [bind_pure] at hthis
      exact hthis
    | false =>
      cases c <;> cases d
      · exact .pure trivial
      · exact hc.elim
      · exact hc.elim
      · exact .pure hc

theorem this_runs {keyword : Token} {target : Hops}
    (h : Expr.Regular r.Admits (.this keyword target)) (hs : s.Stands marks) :
    s.Runs (fun _ => lookUp keyword target) (lookUp keyword target) Alike := by
  have hk := Token.lexeme_this h.1.1 h.2
  obtain ⟨hold, -⟩ := ne_of_keyword (r := r) (show Kind.ofWord "this" = .keyword .this from rfl)
  have hread := lookUp_runs hs h.1.2 target
  rwa [spell_of_ne (hk ▸ hold)] at hread

theorem superMethod_runs (hs : s.Stands marks) (keyword : Token) (target : Hops)
    (method : Token) :
    s.Runs (fun _ => superMethod keyword target method) (superMethod keyword target method)
      Alike := by
  cases target with
  | none => exact .throw _
  | some distance =>
    unfold superMethod
    refine Parallel.Runs.get (P := r.aliases) ?_
    show s.Runs _ (ofFault (s.right.environments.getAt s.right.current distance "super") >>=
      fun _ => ofFault (s.right.environments.getAt s.right.current (distance - 1) "this") >>= _) _
    rw [s.mirrors.current]
    refine keyword_runs "super" (k := .super) rfl hs distance fun v w hv => ?_
    refine keyword_runs "this" (k := .this) rfl hs (distance - 1) fun o o' ho => ?_
    unfold Alike Renaming.Alike Value.Rel at hv
    split at hv
    case h_7 c d =>
      dsimp only
      rcases hv.findMethod method.lexeme with ⟨hf, hg⟩ | ⟨f, g, hf, hg, hfg⟩
      · rw [hf, hg]
        exact .throw _
      · rw [hf, hg]
        exact (bindMethod_runs s hfg ho).bind fun t f g _ hfg => .pure hfg
    case h_9 => exact hv.elim
    all_goals exact .throw _

theorem newFunction_runs (hs : s.Stands marks) (inner : List Bool) {declaration : BoundFunction}
    (h : Stmt.FunctionRegular r.Admits declaration) (isInitializer : Bool) :
    s.Runs (fun _ => newFunction declaration isInitializer)
      (newFunction (Stmt.renamedFunction r (inner ++ marks) declaration) isInitializer)
      fun t f g => r.SameCode t.marking inner f g ∧ f.name = declaration.name.lexeme := by
  refine (nextId_runs s).bind fun t id _ ht hid => Parallel.Runs.get (P := r.aliases) (.pure ?_)
  exact ⟨⟨hid, rfl, t.mirrors.current.symm, marks, hs.later ht, h, rfl⟩, rfl⟩

theorem newMethods_runs (hs : s.Stands marks) {fs : List BoundFunction}
    (h : Stmt.MethodsRegular r.Admits fs) {ms ms' : Bindings Closure}
    (hms : Bindings.Rel (r.SameCode s.marking [false]) ms ms') :
    s.Runs (fun _ => newMethods fs ms)
      (newMethods (Stmt.renamedMethods r (false :: marks) fs) ms')
      fun t => Bindings.Rel (r.SameCode t.marking [false]) := by
  induction fs generalizing s ms ms' with
  | nil => exact .pure hms
  | cons f fs ih =>
    have hname : (Stmt.renamedFunction r (false :: marks) f).name = f.name := by
      cases f
      rfl
    show s.Runs _ (newFunction (Stmt.renamedFunction r (false :: marks) f)
      (Stmt.renamedFunction r (false :: marks) f).isInitializer >>= fun g =>
        newMethods (Stmt.renamedMethods r (false :: marks) fs)
          (ms'.put (Stmt.renamedFunction r (false :: marks) f).name.lexeme g)) _
    rw [Function.isInitializer, hname]
    refine (newFunction_runs hs [false] h.1 f.isInitializer).bind
      fun t g g' ht hg => ih (hs.later ht) h.2 ?_
    exact (hms.mono fun _ _ h => h.mono ht.marking).put _ hg.1

/-- The class is there when the name is bound to it. -/
theorem assignClass_runs (hs : s.Stands marks) {name : Token} (hn : name.lexeme ≠ r.new)
    (hkept : marks.headD false = true → (name.lexeme == r.old) = false)
    (hbound : (s.left.environments.find? s.left.current name.lexeme).isSome)
    {k k' : Nat → Class} (hk : ∀ id, (k id).Rel (r.SameCode s.marking [false]) (k' id)) :
    s.Runs
      (fun _ => nextId >>= fun id => get >>= fun m => assignFrom m.current name (.class_ (k id)))
      (nextId >>= fun id => get >>= fun m => assignFrom m.current name (.class_ (k' id)))
      fun _ _ _ => True := by
  refine (nextId_runs s).bind fun t id _ ht hid => Parallel.Runs.get (P := r.aliases) ?_
  subst hid
  have hmark : t.mark t.left.current = marks.headD false :=
    (hs.later ht).mark_eq t.mirrors.rooted
  have hfound := ht.marking.envs.bound _ _ hbound
  rw [← ht.current] at hfound
  show t.Runs (fun _ => assignFrom t.left.current name _) (assignFrom t.right.current name _) _
  rw [t.mirrors.current]
  have hclass : (k id).Rel (r.SameCode t.marking [false]) (k' id) :=
    (hk id).mono fun _ _ h => h.mono ht.marking
  refine assignFrom_runs (fun _ => hn) ?_ (.inr hfound) hclass
  rw [hmark]
  exact congrArg Token.lexeme (spell_kept hkept)

theorem declareClass_runs (hev : EvaluateMirrored r ev) {name : Token}
    {superclass : Option (Superclass Hops)} {methods : List BoundFunction}
    (hname : name.lexeme ≠ r.new)
    (hkept : marks.headD false = true → (name.lexeme == r.old) = false)
    (hsuperclass : ∀ c ∈ superclass, c.name.Names r.Admits)
    (hmethods : Stmt.MethodsRegular r.Admits methods) (hs : s.Stands marks) :
    s.Runs (fun _ => declareClass ev name superclass methods)
      (declareClass ev name (superclass.map (Superclass.renamed r marks))
        (Stmt.renamedMethods r (Stmt.methodMarks superclass.isSome marks) methods))
      fun _ _ _ => True := by
  have hdefine {t : r.Mirror} (ht : t.Stands marks) :
      t.Runs (fun _ => define name.lexeme .nil) (define name.lexeme .nil)
        fun t _ _ => (t.left.environments.find? t.left.current name.lexeme).isSome := by
    have hdefine := define_runs ht (fun _ => hname) (v := .nil) (w := .nil) trivial
    rwa [spell_kept hkept] at hdefine
  have hstays {t u : r.Mirror} (htu : t.Later u)
      (h : (t.left.environments.find? t.left.current name.lexeme).isSome) :
      (u.left.environments.find? u.left.current name.lexeme).isSome := by
    rw [htu.current]
    exact htu.marking.envs.bound _ _ h
  cases superclass with
  | none =>
    refine (hdefine hs).bind fun t _ _ ht hbound => ?_
    refine (newMethods_runs (hs.later ht) hmethods .nil).bind fun u ms ms' hu hms => ?_
    exact assignClass_runs ((hs.later ht).later hu) hname hkept (hstays hu hbound)
      (k := (.root · name.lexeme ms)) fun id => ⟨rfl, rfl, hms⟩
  | some superclass =>
    refine (hev s marks superclass.expr (hsuperclass superclass rfl) hs).bind
      fun t v w ht hv => ?_
    have hclass := hv
    unfold Alike Renaming.Alike Value.Rel at hv
    split at hv
    case h_7 c d =>
      refine (hdefine (hs.later ht)).bind fun u _ _ hu hbound =>
        Parallel.Runs.get (P := r.aliases) ?_
      have hsu := (hs.later ht).later hu
      have hsuper : r.Aliases false (Alike u) [("super", .class_ c)] [("super", .class_ d)] :=
        aliases_singleton r "super" (hclass.mono hu.marking)
      show u.Runs (fun _ => newEnvironment u.left.current _ >>= _)
        (newEnvironment u.right.current _ >>= _) _
      rw [u.mirrors.current]
      refine (newEnvironment_runs hsu hsuper).bind fun u₁ e _ hu₁ he => ?_
      obtain ⟨rfl, hlies⟩ := he
      have hstands : (u₁.moved e u₁.left.callDepth).Stands (false :: marks) := hlies
      refine (inEnvironment_runs e (fun _ _ _ _ _ h => h)
        (newMethods_runs hstands hmethods .nil)).bind fun u₂ ms ms' hu₂ hms => ?_
      have hlater := r.aliases.later_trans hu₁ hu₂
      have hcd : c.Rel (r.SameCode u₂.marking [false]) d := Class.Rel.mono hv fun _ _ h =>
        h.mono (hu.marking.trans hlater.marking)
      exact assignClass_runs (hsu.later hlater) hname hkept (hstays hlater hbound)
        (k := (.derived · name.lexeme ms c)) fun id => ⟨rfl, rfl, hms, hcd⟩
    case h_9 => exact hv.elim
    all_goals exact .throw _

theorem evaluateForm_runs (settings : Settings) (hev : EvaluateMirrored r ev)
    (hex : ExecuteMirrored r ex) {e : BoundExpr} (he : e.Regular r.Admits) (hs : s.Stands marks) :
    s.Runs (fun _ => evaluateForm settings ev (apply ex) e)
      (evaluateForm settings ev (apply ex) (e.renamed r marks)) Alike := by
  have hpart (e : BoundExpr) (he : e.Regular r.Admits) (t : r.Mirror) (ht : s.Later t) :
      t.Runs (fun _ => ev e) (ev (e.renamed r marks)) Alike := hev t marks e he (hs.later ht)
  have hfirst (e : BoundExpr) (he : e.Regular r.Admits) := hev s marks e he hs
  cases e with
  | literal line value => cases value <;> exact .pure (by first | exact trivial | exact rfl)
  | grouping line inner => exact hfirst inner he
  | unary operator right => exact Parallel.unary_runs (hfirst right he.2) operator
  | binary left operator right =>
    exact Parallel.binary_runs (hfirst left he.1) (hpart right he.2.2) operator
  | logical left operator right =>
    exact Parallel.logical_runs (hfirst left he.1) (hpart right he.2.2) operator
  | read name target => exact lookUp_runs hs he.good.2 target
  | assign line name target value =>
    refine (hfirst value he.2).bind fun t v w ht hv => ?_
    exact (assign_runs (hs.later ht) he.1.good.2 target hv).bind fun u _ _ hu _ =>
      .pure (hv.mono hu.marking)
  | call callee paren arguments =>
    refine (hfirst callee he.1).bind fun t v w ht hv => ?_
    refine (Parallel.evaluateAll_runs (forall₂_renamedExprs he.2.2) fun u e e' hu h => ?_).bind
      fun u vs ws hu hvs => ?_
    · obtain ⟨rfl, h⟩ := h
      exact hpart e h u (r.aliases.later_trans ht hu)
    · have hcall := Parallel.call_runs (laws r) settings
        (fun _ _ _ _ hf hvs => apply_runs hex hf hvs) (hv.mono hu.marking) hvs paren.line
      simp only [callBy_bindMethod] at hcall
      exact hcall
  | get object name =>
    exact (hfirst object he.1).bind fun t v w _ hv => Parallel.getProperty_runs (laws r) hv name
  | set line object name value =>
    exact Parallel.set_runs (laws r) (hfirst object he.1) (hpart value he.2.2) name
  | this keyword target => exact this_runs he hs
  | super keyword target method => exact superMethod_runs hs keyword target method

theorem executeForm_runs (settings : Settings) (hev : EvaluateMirrored r ev)
    (hex : ExecuteMirrored r ex) {st : BoundStmt} (hst : st.Regular r.Admits)
    (hkept : marks.headD false = true → st.isNamed r.old = false) (hs : s.Stands marks) :
    s.Runs (fun _ => executeForm settings ev ex st)
      (executeForm settings ev ex (st.renamed r marks)) (Parallel.Ends (P := r.aliases)) := by
  have hpart (st : BoundStmt) (hst : st.Regular r.Admits)
      (hplain : st.isPlain = true) (t : r.Mirror) (ht : s.Later t) :
      t.Runs (fun _ => ex st) (ex (st.renamed r marks)) (Parallel.Ends (P := r.aliases)) :=
    hex t marks st hst (fun _ => Stmt.not_isNamed_of_isPlain hplain) (hs.later ht)
  have hfirst (e : BoundExpr) (he : e.Regular r.Admits) := hev s marks e he hs
  cases st with
  | expression line value => exact (hfirst value hst).bind fun _ _ _ _ _ => .pure trivial
  | print line value => exact Parallel.print_runs (laws r) (hfirst value hst)
  | var name initializer =>
    have hdefine {t : r.Mirror} (ht : s.Later t) {v w : Value} (hv : Alike t v w) :
        t.Runs (fun _ => define name.lexeme v >>= fun _ => pure Completion.normal)
          (define (r.spell (marks.headD false) name).lexeme w >>= fun _ => pure .normal)
          (Parallel.Ends (P := r.aliases)) :=
      (define_runs (hs.later ht) (fun _ => hst.1.good.2) hv).bind fun _ _ _ _ _ => .pure trivial
    cases initializer with
    | none => exact hdefine (r.aliases.later_refl s) (v := .nil) (w := .nil) trivial
    | some e => exact (hfirst e (hst.2 e rfl)).bind fun t v w ht hv => hdefine ht hv
  | block line body =>
    refine Parallel.Runs.get (P := r.aliases) ?_
    show s.Runs (fun _ => executeBlock ex s.left.current [] body)
      (executeBlock ex s.right.current [] _) _
    rw [s.mirrors.current]
    exact executeBlock_runs hex hs (aliases_nil r (r.marks [] body) _) hst
      not_isNamed_of_marks
  | ifThen line condition thenBranch =>
    exact Parallel.branch_runs (hfirst condition hst.1)
      (hpart thenBranch hst.2.1 hst.2.2) fun _ _ => .pure trivial
  | ifElse line condition thenBranch elseBranch =>
    exact Parallel.branch_runs (hfirst condition hst.1)
      (hpart thenBranch hst.2.1.1 hst.2.1.2)
      (hpart elseBranch hst.2.2.1 hst.2.2.2)
  | while_ line condition body =>
    exact Parallel.loop_runs (fun t ht => hev t marks condition hst.1 (hs.later ht))
      (hpart body hst.2.1 hst.2.2) settings.turns
  | function f =>
    refine (newFunction_runs hs [] hst false).bind fun t g g' ht hg => ?_
    obtain ⟨hg, hname⟩ := hg
    have hnew : f.name.lexeme ≠ r.new := by
      cases f
      exact hst.1.good.2
    have hdefine := define_runs (hs.later ht) (fun _ => hnew) (v := .function g)
      (w := .function g') hg
    rw [spell_kept hkept, ← hname] at hdefine
    show t.Runs (fun _ => define g.name _ >>= _) (define g'.name _ >>= _) _
    rw [← hg.head_eq.1]
    exact hdefine.bind fun _ _ _ _ _ => .pure trivial
  | return_ keyword value =>
    cases value with
    | none => exact .pure trivial
    | some e => exact (hfirst e (hst.2 e rfl)).bind fun _ _ _ _ hv => .pure hv
  | class_ line name superclass methods =>
    exact (declareClass_runs hev hst.1.good.2 hkept hst.2.1 hst.2.2 hs).bind
      fun _ _ _ _ _ => .pure trivial

end forms

theorem evaluate_execute_mirrored (r : Renaming) (settings : Settings) (nesting : Nat) :
    EvaluateMirrored r (evaluate settings nesting) ∧
      ExecuteMirrored r (execute settings nesting) := by
  induction nesting with
  | zero => exact ⟨fun s _ _ _ _ => .throw _, fun s _ _ _ _ _ => .throw _⟩
  | succ nesting ih =>
    obtain ⟨hev, hex⟩ := ih
    refine ⟨fun s marks e he hs => evaluateForm_runs settings hev hex he hs,
      fun s marks st hst hn hs => ?_⟩
    have htraced : (st.renamed r marks).line = st.line ∧ (st.renamed r marks).kind = st.kind := by
      cases st with
      | function f => cases f; exact ⟨rfl, rfl⟩
      | _ => exact ⟨rfl, rfl⟩
    simp only [execute]
    rw [htraced.1, htraced.2]
    split
    · exact (emit_runs s _).bind fun t _ _ ht _ =>
        executeForm_runs settings hev hex hst hn (hs.later ht)
    · exact executeForm_runs settings hev hex hst hn hs

theorem executeProgram_runs (settings : Settings) {ss : List BoundStmt}
    (h : Stmt.RegularList r.Admits ss) (hs : s.Stands []) :
    s.Runs (fun _ => executeProgram settings ss)
      (executeProgram settings (Stmt.renamedList r [] ss)) fun _ _ _ => True := by
  induction ss generalizing s with
  | nil => exact .pure trivial
  | cons st ss ih =>
    have hst := (evaluate_execute_mirrored r settings settings.nesting).2 s [] st h.1
      (fun hm => nomatch hm) hs
    exact hst.bind fun t _ _ ht _ => ih h.2 (hs.later ht)

/-- Before a session begins, there are no marks. -/
def initial (r : Renaming) (clock : Float) : r.Mirror where
  mark _ := false
  left := .initial clock
  right := .initial clock
  mirrors :=
    { rooted := ⟨(Lexical.mirrored_initial clock).exists_, rfl⟩
      size := rfl
      link := fun _ => rfl
      bound := fun e x _ => by
        rw [spelling_false, Lexical.bindings_initial]
        split
        · rw [Bindings.find?_cons]
          split
          · exact .some rfl
          · exact .none
        · exact .none
      objects_size := rfl
      objects := fun ref => by
        rw [show (Machine.initial clock).objects[ref]? = none from rfl]
        exact .none
      created := rfl
      current := rfl
      callDepth := rfl
      clock := rfl
      events := rfl }

/-- Both runs end alike. In an accepted program nothing is a fault, so no failure tells the new name
from the old one. -/
theorem run_mirrored (r : Renaming) (settings : Settings) (clock : Float) {program : List RawStmt}
    (h : Accepted program) (hnew : Stmt.RegularList (·.lexeme ≠ r.new) program) :
    let bound := Stmt.boundList .topLevel program
    ∃ (ending : Option Failure) (t : r.Mirror),
      (Machine.initial clock).run (executeProgram settings bound) =
          (ending, { t.left with current := Machine.globals, callDepth := 0 }) ∧
        (Machine.initial clock).run (executeProgram settings (Stmt.renamedProgram r bound)) =
          (ending, { t.right with current := Machine.globals, callDepth := 0 }) := by
  intro bound
  have hinitial : (Machine.initial clock).Sound := (Session.ready_initial clock).sound
  have hfault := (Audit.executeProgram_agrees settings rfl h.accepted h.regular
    Surroundings.settled_topLevel hinitial (hinitial.standsAt rfl)).run.2.2
  have hregular : Stmt.RegularList r.Admits bound :=
    Stmt.regularList_boundList .topLevel program h.regular hnew
  obtain ⟨t, -, f, g, hfg, hright, hleft⟩ := Parallel.Runs.endings
    (executeProgram_runs settings hregular (rfl : (initial r clock).Stands []))
  have hleft : (Machine.initial clock).run (executeProgram settings bound) = (f, _) :=
    hleft () trivial
  rw [hleft] at hfault
  obtain rfl : f = g := by
    cases hfg with
    | none => rfl
    | some hfg =>
      rcases hfg with rfl | ⟨hf, -⟩
      · rfl
      · exact absurd hf (by simp [hfault _ rfl])
  exact ⟨f, t, hleft, hright⟩

end Mirror
end Renaming

namespace Session

/-- The same is written, in the same order, and the same errors are recorded. -/
structure Echoes (s t : Session) : Prop where
  events : t.machine.events = s.machine.events
  diagnostics : t.diagnostics = s.diagnostics
  breakdown : t.breakdown = s.breakdown

theorem Echoes.conclude {s t : Session} (h : s.Echoes t) (ending : Option Failure) :
    (s.conclude ending).Echoes (t.conclude ending) := by
  have hreport (e : RuntimeError) : (s.reportRuntimeError e).Echoes (t.reportRuntimeError e) :=
    ⟨congrArg (Event.reported e.text :: ·) h.events, congrArg (·.addRuntime e.text) h.diagnostics,
      h.breakdown⟩
  rcases ending with _ | (e | _ | _ | f)
  · exact h
  · exact hreport e
  · exact hreport _
  · exact ⟨h.events, h.diagnostics, rfl⟩
  · exact ⟨h.events, h.diagnostics, rfl⟩

/-- A program may give its local variables and parameters another name. Choose any declarations, and
let these, and the uses that resolve to their scopes, have a new name that occurs nowhere in the
program. Then all uses resolve as before, and the program writes and reports the same. -/
theorem runProgram_renamed (r : Renaming) {text : String} (h : Clean text)
    (hnew : ∀ t ∈ (Scan.ofText text).tokens, t.lexeme ≠ r.new) :
    let renamed := Stmt.renamedProgram r (Text.program text)
    Stmt.localNames renamed = (Stmt.localNames (Text.program text)).map r.respell ∧
      Resolution.ofProgram (Stmt.rawList renamed) = ⟨renamed, []⟩ ∧
      (Stmt.references renamed).map Reference.distance =
        (Stmt.references (Text.program text)).map Reference.distance ∧
      ∀ (clock : Float) (settings : Settings),
        ((initial clock).runProgram settings text).Echoes
          ((initial clock).resolveAndRun settings (Stmt.rawList renamed)) := by
  have haccepted : Accepted (Parse.program (Scan.ofText text).tokens).value :=
    ⟨Parse.program_regular (Scan.ofText_spelled text), h.problems⟩
  have hfresh := Parse.program_regular hnew
  have hprogram : Text.program text = Stmt.boundList .topLevel
      (Parse.program (Scan.ofText text).tokens).value :=
    congrArg Resolution.program (Resolution.ofProgram_eq _)
  intro renamed
  have hrenamed : Resolution.ofProgram (Stmt.rawList renamed) = ⟨renamed, []⟩ := by
    obtain ⟨ha, hb⟩ := Stmt.accepted_renamed r haccepted hfresh
    rw [← hprogram] at ha hb
    rw [Resolution.ofProgram_eq, ha.accepted, hb]
  have hnames : Stmt.localNames renamed =
      (Stmt.localNames (Text.program text)).map r.respell := by
    have hnames := Stmt.localNames_renamed r haccepted
    rwa [← hprogram] at hnames
  refine ⟨hnames, hrenamed, Stmt.distances_renamedProgram r _, fun clock settings => ?_⟩
  have hresolved : (initial clock).resolveAndRun settings (Stmt.rawList renamed) =
      (initial clock).interpret settings renamed := by
    unfold resolveAndRun
    rw [hrenamed]
    rfl
  obtain ⟨ending, t, hleft, hright⟩ :=
    Renaming.Mirror.run_mirrored r settings clock haccepted hfresh
  rw [← hprogram] at hleft hright
  rw [runProgram_of_clean settings h rfl, hresolved, interpret, interpret, run_def, run_def]
  rw [show (initial clock).machine = .initial clock from rfl, hleft, hright]
  let rest (m : Machine) : Session :=
    { initial clock with machine := { m with current := Machine.globals, callDepth := 0 } }
  have hrest : (rest t.left).Echoes (rest t.right) := ⟨t.mirrors.events, rfl, rfl⟩
  exact hrest.conclude ending

/-- In the block `a` is first the global, then the variable of the block, of an inner block, and
again of the block. -/
def covering : String :=
  "var a = \"global\";\n\x7b fun show() \x7b print a; \x7d var a = \"block\"; show();\n" ++
    "  \x7b var a = \"inner\"; a = a + a; \x7d\n  fun last(n) \x7b a = n; return a; \x7d\n" ++
    "  print last(a + \"!\"); \x7d"

/-- Renames the variable of the block. -/
def uncovering : Renaming where
  old := "a"
  new := "b"
  chosen t := t.position == ⟨2, 31⟩
  ne := by decide
  old_isName := by decide +kernel
  new_isName := by decide +kernel

theorem covering_renamed :
    Clean covering ∧ (∀ t ∈ (Scan.ofText covering).tokens, t.lexeme ≠ uncovering.new) ∧
      let renamed := Stmt.renamedProgram uncovering (Text.program covering)
      Stmt.localNames renamed =
          (Stmt.localNames (Text.program covering)).map uncovering.respell ∧
        Resolution.ofProgram (Stmt.rawList renamed) = ⟨renamed, []⟩ ∧
        (Stmt.references renamed).map Reference.distance =
          (Stmt.references (Text.program covering)).map Reference.distance ∧
        ∀ (clock : Float) (settings : Settings),
          ((initial clock).runProgram settings covering).Echoes
            ((initial clock).resolveAndRun settings (Stmt.rawList renamed)) := by
  have h : Clean covering := ⟨by decide +kernel, by decide +kernel, by decide +kernel⟩
  have hnew : ∀ t ∈ (Scan.ofText covering).tokens, t.lexeme ≠ uncovering.new := by
    decide +kernel
  exact ⟨h, hnew, runProgram_renamed uncovering h hnew⟩

example :
    (Stmt.references (Stmt.renamedProgram uncovering (Text.program covering))).map
        (·.token.lexeme) =
      ["show", "a", "a", "a", "b", "n", "b", "last", "b"] := by
  decide +kernel

end Session
end Lox

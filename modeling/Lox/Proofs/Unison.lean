import Lox.Proofs.Pairing

/-! Forms in unison. A part of a program that is resolved with and without a spare scope around it
runs the same on the two machines of a pair. Whatever declares a name stands further in than the
spare scope. -/

namespace Lox
namespace Pair
open Eval
variable {t u : Pair} {k : Spare} {s s' : Surroundings} {v w : Value}

def Evaluates (ev : BoundExpr → Eval Value) : Prop :=
  ∀ (t : Pair) (k : Spare) (s s' : Surroundings) (e : RawExpr), e.Regular Token.Spelled →
    Surroundings.Spared k s s' → t.Stands k →
      t.Runs (fun _ => ev (e.bound s)) (ev (e.bound s')) Alike

def Executes (ex : BoundStmt → Eval Completion) : Prop :=
  ∀ (t : Pair) (k : Spare) (s s' : Surroundings) (st : RawStmt), st.Regular Token.Spelled →
    (k = some 0 → st.isPlain) → Surroundings.Spared k s s' → t.Stands k →
      t.Runs (fun _ => ex (st.bound s)) (ex (st.bound s')) (Parallel.Ends (P := pairs))

theorem forall₂_boundExprs {es : List RawExpr} (h : Expr.RegularList Token.Spelled es) :
    List.Forall₂ (fun b b' => ∃ e : RawExpr, e.Regular Token.Spelled ∧ b = e.bound s ∧
      b' = e.bound s') (Expr.boundList s es) (Expr.boundList s' es) := by
  induction es with
  | nil => exact .nil
  | cons e es ih => exact .cons ⟨e, h.1, rfl, rfl⟩ (ih h.2)

theorem forall₂_boundStmts {ss : List RawStmt} (h : Stmt.RegularList Token.Spelled ss)
    (hk : k ≠ some 0) (hs : Surroundings.Spared k s s') :
    List.Forall₂ (fun b b' => ∃ (st : RawStmt) (s s' : Surroundings), st.Regular Token.Spelled ∧
      Surroundings.Spared k s s' ∧ b = st.bound s ∧ b' = st.bound s')
      (Stmt.boundList s ss) (Stmt.boundList s' ss) := by
  induction ss generalizing s s' with
  | nil => exact .nil
  | cons st ss ih =>
    exact .cons ⟨st, s, s', h.1, hs, rfl, rfl⟩ (ih h.2 (hs.after h.1 fun h0 => absurd h0 hk))

section forms
variable {ev : BoundExpr → Eval Value} {ex : BoundStmt → Eval Completion}

theorem executeBlock_runs (hex : Executes ex) {p q : Nat} (h : t.layout.Lies k p q)
    {b c : Bindings Value} (hb : b.Same (Alike t) c) {body : List RawStmt}
    (hbody : Stmt.RegularList Token.Spelled body) (hs : Surroundings.Spared k.inner s s') :
    t.Runs (fun _ => executeBlock ex p b (Stmt.boundList s body))
      (executeBlock ex q c (Stmt.boundList s' body)) (Parallel.Ends (P := pairs)) := by
  refine (newEnvironment_runs h hb).bind fun u e f hu he => ?_
  refine inEnvironment_runs e f (fun _ _ _ _ _ _ h => h) ?_
  have hstands : (u.moved e f u.left.callDepth).Stands k.inner := he
  refine Parallel.executeAll_runs (forall₂_boundStmts hbody k.inner_ne_zero hs)
    fun u' b b' hu' hst => ?_
  obtain ⟨st, s, s', hr, hs, rfl, rfl⟩ := hst
  exact hex u' _ s s' st hr (fun h0 => absurd h0 k.inner_ne_zero) hs (hstands.later hu')

theorem apply_runs (hex : Executes ex) {f g : Closure} (hf : t.layout.SameCode id f g)
    {vs ws : List Value} (hvs : List.Forall₂ (Alike t) vs ws) :
    t.Runs (fun _ => apply ex f vs) (apply ex g ws) Alike := by
  obtain ⟨k, s, s', activation, ⟨name, parameters, body⟩, hs, hl, hr, hdf, hdg⟩ := hf.declaration
  have hlt : f.environment < t.left.environments.frames.size := hl.left
  unfold apply
  rw [hdf, hdg, ← hf.isInitializer]
  refine (executeBlock_runs hex hl (Bindings.same_ofPairs _ hvs) hr.2.2
    (hs.entering activation parameters)).bind fun u c d hu hc => ?_
  cases f.isInitializer with
  | true =>
    refine Parallel.Runs.get (P := pairs) ?_
    have hgrown := Nat.lt_of_lt_of_le hlt hu.layout.left.grows.size
    have hthis := u.holds.bound f.environment hgrown "this"
    rw [← show g.environment = u.place f.environment from
      hf.environment.trans (hu.layout.place _ hlt).symm] at hthis
    show u.Runs (fun _ => ofFault (u.left.environments.getAt f.environment 0 "this"))
      (ofFault (u.right.environments.getAt g.environment 0 "this")) _
    unfold Environments.getAt Environments.ancestor Environments.ancestor? Environments.find?
    dsimp only
    generalize (u.left.environments.bindings f.environment).find? "this" = v?,
      (u.right.environments.bindings g.environment).find? "this" = w? at hthis ⊢
    cases hthis with
    | none => exact .throw _
    | some hv => exact .pure hv
  | false =>
    cases c <;> cases d
    · exact .pure trivial
    · exact hc.elim
    · exact hc.elim
    · exact .pure hc

theorem superMethod_runs (ht : t.Stands k) (hs : Surroundings.Spared k s s') (keyword : Token)
    (method : Token) :
    t.Runs (fun _ => superMethod keyword (s.hops "super") method)
      (superMethod keyword (s'.hops "super") method) Alike := by
  rw [hs.hops]
  cases hd : s.hops "super" with
  | none => exact .throw _
  | some d =>
    -- The spare scope does not part the two, so `this` is one scope further in on both sides.
    have hne : ∀ j ∈ k, d ≠ j := fun j hj he => hs.super j hj (he ▸ hd)
    unfold superMethod
    refine Parallel.Runs.get (P := pairs) ?_
    refine found_runs ht d "super" fun v w hv => ?_
    rw [Spare.past_sub_one hne]
    refine found_runs ht (d - 1) "this" fun o o' ho => ?_
    unfold Alike Layout.Alike Value.Rel at hv
    split at hv
    case h_7 c c' =>
      dsimp only
      rcases hv.findMethod method.lexeme with ⟨hf, hg⟩ | ⟨f, g, hf, hg, hfg⟩
      · rw [hf, hg]
        exact .throw _
      · rw [hf, hg]
        exact (bindMethod_runs t hfg ho).bind fun u f g _ hfg => .pure hfg
    case h_9 => exact hv.elim
    all_goals exact .throw _

theorem newFunction_runs (ht : t.Stands k) (hk : k ≠ some 0) (hs : Surroundings.Spared k s s')
    (inner : Surroundings → Surroundings) (activation : Activation) {raw : RawFunction}
    (hr : Stmt.FunctionRegular Token.Spelled raw) (isInitializer : Bool) :
    t.Runs (fun _ => newFunction (Stmt.functionBound (inner s) activation raw) isInitializer)
      (newFunction (Stmt.functionBound (inner s') activation raw) isInitializer)
      fun u f g => u.layout.SameCode inner f g ∧ f.name = raw.name.lexeme := by
  refine (nextId_runs t).bind fun u id _ hu hid => Parallel.Runs.get (P := pairs) (.pure ?_)
  have hstands := ht.later hu
  refine ⟨⟨hid, rfl, hstands.place_eq hk, k, s, s', activation, raw, hs, hstands, hr, rfl, rfl⟩, ?_⟩
  cases raw
  rfl

theorem newMethods_runs (ht : t.Stands k) (hk : k ≠ some 0) (hs : Surroundings.Spared k s s')
    {fs : List RawFunction} (hr : Stmt.MethodsRegular Token.Spelled fs) {ms ms' : Bindings Closure}
    (hms : Bindings.Rel (t.layout.SameCode Layout.inMethod) ms ms') :
    t.Runs (fun _ => newMethods (Stmt.methodsBound (Layout.inMethod s) fs) ms)
      (newMethods (Stmt.methodsBound (Layout.inMethod s') fs) ms')
      fun u => Bindings.Rel (u.layout.SameCode Layout.inMethod) := by
  induction fs generalizing t ms ms' with
  | nil => exact .pure hms
  | cons f fs ih =>
    obtain ⟨name, parameters, body⟩ := f
    exact (newFunction_runs ht hk hs Layout.inMethod _ hr.1 _).bind fun u g g' hu hg =>
      ih (ht.later hu) hr.2 ((hms.mono fun _ _ h => h.mono hu.layout).put name.lexeme hg.1)

/-- The class is there when the name is bound to it. -/
theorem assignClass_runs (ht : t.Stands k) (hk : k ≠ some 0) {name : Token}
    (hbound : (t.left.environments.find? t.left.current name.lexeme).isSome)
    {c c' : Nat → Class} (hc : ∀ id, (c id).Rel (t.layout.SameCode Layout.inMethod) (c' id)) :
    t.Runs
      (fun _ => nextId >>= fun id => get >>= fun m => assignFrom m.current name (.class_ (c id)))
      (nextId >>= fun id => get >>= fun m => assignFrom m.current name (.class_ (c' id)))
      fun _ _ _ => True := by
  refine (nextId_runs t).bind fun u id _ hu hid => Parallel.Runs.get (P := pairs) ?_
  subst hid
  have hstands := ht.later hu
  have hfound := hu.layout.left.grows.bound _ _ hbound
  rw [← hu.left] at hfound
  have hclass : (c id).Rel (u.layout.SameCode Layout.inMethod) (c' id) :=
    (hc id).mono fun _ _ h => h.mono hu.layout
  show u.Runs (fun _ => assignFrom u.left.current name _) (assignFrom u.right.current name _) _
  rw [show u.right.current = u.place u.left.current from hstands.place_eq hk]
  exact assignFrom_runs hstands.left name (.inr hfound) hclass

theorem declareClass_runs (hev : Evaluates ev) (ht : t.Stands k) (hk : k ≠ some 0) {name : Token}
    {superclass : Option (Superclass Unit)} {methods : List RawFunction}
    (hsuperclass : ∀ c ∈ superclass, c.name.Names Token.Spelled)
    (hmethods : Stmt.MethodsRegular Token.Spelled methods) (hs : Surroundings.Spared k s s') :
    t.Runs
      (fun _ => declareClass ev name (superclass.map (Superclass.bound s))
        (Stmt.methodsBound (s.ofMethods superclass.isSome) methods))
      (declareClass ev name (superclass.map (Superclass.bound s'))
        (Stmt.methodsBound (s'.ofMethods superclass.isSome) methods))
      fun _ _ _ => True := by
  have hdefine {t : Pair} (ht : t.Stands k) :
      t.Runs (fun _ => define name.lexeme .nil) (define name.lexeme .nil)
        fun t _ _ => (t.left.environments.find? t.left.current name.lexeme).isSome :=
    define_runs ht hk name.lexeme (v := .nil) (w := .nil) trivial
  have hstays {t u : Pair} (htu : t.Later u)
      (h : (t.left.environments.find? t.left.current name.lexeme).isSome) :
      (u.left.environments.find? u.left.current name.lexeme).isSome := by
    rw [htu.left]
    exact htu.layout.left.grows.bound _ _ h
  cases superclass with
  | none =>
    refine (hdefine ht).bind fun u _ _ hu hbound => ?_
    refine (newMethods_runs (ht.later hu) hk (hs.inContext .class_) hmethods .nil).bind
      fun u' ms ms' hu' hms => ?_
    exact assignClass_runs ((ht.later hu).later hu') hk (hstays hu' hbound)
      (c := (.root · name.lexeme ms)) fun id => ⟨rfl, rfl, hms⟩
  | some superclass =>
    have hname := hsuperclass superclass rfl
    refine (hev t k s s' (.read superclass.name ()) hname hs ht).bind fun u v w hu hv => ?_
    have hclass := hv
    unfold Alike Layout.Alike Value.Rel at hv
    split at hv
    case h_7 c d =>
      refine (hdefine (ht.later hu)).bind fun u₁ _ _ hu₁ hbound =>
        Parallel.Runs.get (P := pairs) ?_
      have hstands := (ht.later hu).later hu₁
      have hsuper : Bindings.Same (Alike u₁) [("super", .class_ c)] [("super", .class_ d)] :=
        (Bindings.same_nil _).put "super" (hclass.mono hu₁.layout)
      refine (newEnvironment_runs hstands hsuper).bind fun u₂ e f hu₂ he => ?_
      have hinside : (u₂.moved e f u₂.left.callDepth).Stands k.inner := he
      refine (inEnvironment_runs e f (fun _ _ _ _ _ _ h => h)
        (newMethods_runs hinside k.inner_ne_zero ((hs.inContext .subclass).push _) hmethods
          .nil)).bind fun u₃ ms ms' hu₃ hms => ?_
      have hlater := hu₂.trans hu₃
      have hcd : c.Rel (u₃.layout.SameCode Layout.inMethod) d := Class.Rel.mono hv fun _ _ h =>
        h.mono (hu₁.trans hlater).layout
      exact assignClass_runs (hstands.later hlater) hk (hstays hlater hbound)
        (c := (.derived · name.lexeme ms c)) fun id => ⟨rfl, rfl, hms, hcd⟩
    case h_9 => exact hv.elim
    all_goals exact .throw _

theorem evaluateForm_runs (settings : Settings) (hev : Evaluates ev) (hex : Executes ex)
    {e : RawExpr} (he : e.Regular Token.Spelled) (hs : Surroundings.Spared k s s')
    (ht : t.Stands k) :
    t.Runs (fun _ => evaluateForm settings ev (apply ex) (e.bound s))
      (evaluateForm settings ev (apply ex) (e.bound s')) Alike := by
  have hpart (e : RawExpr) (he : e.Regular Token.Spelled) (u : Pair) (hu : t.Later u) :
      u.Runs (fun _ => ev (e.bound s)) (ev (e.bound s')) Alike := hev u k s s' e he hs (ht.later hu)
  have hfirst (e : RawExpr) (he : e.Regular Token.Spelled) := hev t k s s' e he hs ht
  cases e with
  | literal line value => cases value <;> exact .pure (by first | exact trivial | exact rfl)
  | grouping line inner => exact hfirst inner he
  | unary operator right => exact Parallel.unary_runs (hfirst right he.2) operator
  | binary left operator right =>
    exact Parallel.binary_runs (hfirst left he.1) (hpart right he.2.2) operator
  | logical left operator right =>
    exact Parallel.logical_runs (hfirst left he.1) (hpart right he.2.2) operator
  | read name _ =>
    simp only [Expr.bound, hs.hops]
    exact lookUp_runs ht name _
  | assign line name _ value =>
    simp only [Expr.bound, hs.hops]
    refine (hfirst value he.2).bind fun u v w hu hv => ?_
    exact (assign_runs (ht.later hu) name _ hv).bind fun u' _ _ hu' _ => .pure (hv.mono hu'.layout)
  | call callee paren arguments =>
    refine (hfirst callee he.1).bind fun u v w hu hv => ?_
    refine (Parallel.evaluateAll_runs (forall₂_boundExprs he.2.2) fun u' b b' hu' h => ?_).bind
      fun u' vs ws hu' hvs => ?_
    · obtain ⟨e, h, rfl, rfl⟩ := h
      exact hpart e h u' (hu.trans hu')
    · have hcall := Parallel.call_runs laws settings
        (fun _ _ _ _ hf hvs => apply_runs hex hf hvs) (hv.mono hu'.layout) hvs paren.line
      simp only [callBy_bindMethod] at hcall
      exact hcall
  | get object name =>
    exact (hfirst object he.1).bind fun u v w _ hv => Parallel.getProperty_runs laws hv name
  | set line object name value =>
    exact Parallel.set_runs laws (hfirst object he.1) (hpart value he.2.2) name
  | this keyword _ =>
    have htarget : (if s'.context = .outside then none else s'.hops keyword.lexeme) =
        (if s.context = .outside then none else s.hops keyword.lexeme).map k.past := by
      rw [hs.context, hs.hops]
      split <;> rfl
    simp only [Expr.bound, htarget]
    exact lookUp_runs ht keyword _
  | super keyword _ method =>
    simp only [Expr.bound, Token.lexeme_super he.1.1 he.1.2]
    exact superMethod_runs ht hs keyword method

theorem declareVar_runs (settings : Settings) (hev : Evaluates ev) (ht : t.Stands k)
    (hk : k ≠ some 0) {name : Token} {initializer : Option RawExpr}
    (hr : Expr.Regular? Token.Spelled initializer) (hs : Surroundings.Spared k s s') :
    t.Runs (fun _ => executeForm settings ev ex ((Stmt.var name initializer).bound s))
      (executeForm settings ev ex ((Stmt.var name initializer).bound s'))
      (Parallel.Ends (P := pairs)) := by
  have hdefine {u : Pair} (hu : t.Later u) {v w : Value} (hv : Alike u v w) :
      u.Runs (fun _ => define name.lexeme v >>= fun _ => pure Completion.normal)
        (define name.lexeme w >>= fun _ => pure .normal) (Parallel.Ends (P := pairs)) :=
    (define_runs (ht.later hu) hk name.lexeme hv).bind fun _ _ _ _ _ => .pure trivial
  cases initializer with
  | none => exact hdefine (.refl t) (v := .nil) (w := .nil) trivial
  | some e =>
    have hinitializing := (hs.bind hk name.lexeme false).initializing name
    exact (hev t k _ _ e (hr e rfl) hinitializing ht).bind fun u v w hu hv => hdefine hu hv

theorem executeForm_runs (settings : Settings) (hev : Evaluates ev) (hex : Executes ex)
    {st : RawStmt} (hst : st.Regular Token.Spelled) (hplain : k = some 0 → st.isPlain)
    (hs : Surroundings.Spared k s s') (ht : t.Stands k) :
    t.Runs (fun _ => executeForm settings ev ex (st.bound s))
      (executeForm settings ev ex (st.bound s')) (Parallel.Ends (P := pairs)) := by
  have hpart (st : RawStmt) (hst : st.Regular Token.Spelled) (hplain : st.isPlain) (u : Pair)
      (hu : t.Later u) :
      u.Runs (fun _ => ex (st.bound s)) (ex (st.bound s')) (Parallel.Ends (P := pairs)) :=
    hex u k s s' st hst (fun _ => hplain) hs (ht.later hu)
  have hfirst (e : RawExpr) (he : e.Regular Token.Spelled) := hev t k s s' e he hs ht
  have hdeclares (h : st.isPlain = false) : k ≠ some 0 := fun h0 => by
    rw [hplain h0] at h
    cases h
  cases st with
  | expression line value => exact (hfirst value hst).bind fun _ _ _ _ _ => .pure trivial
  | print line value => exact Parallel.print_runs laws (hfirst value hst)
  | var name initializer => exact declareVar_runs settings hev ht (hdeclares rfl) hst.2 hs
  | block line body =>
    exact Parallel.Runs.get (P := pairs)
      (executeBlock_runs hex ht (Bindings.same_nil _) hst (hs.push []))
  | ifThen line condition thenBranch =>
    exact Parallel.branch_runs (hfirst condition hst.1) (hpart thenBranch hst.2.1 hst.2.2)
      fun _ _ => .pure trivial
  | ifElse line condition thenBranch elseBranch =>
    obtain ⟨hc, ⟨hthen, hthenPlain⟩, helse, helsePlain⟩ := hst
    have hafter (s : Surroundings) : Stmt.after s thenBranch = s :=
      Stmt.after_of_isPlain hthen hthenPlain
    simp only [Stmt.bound, hafter]
    exact Parallel.branch_runs (hfirst condition hc) (hpart thenBranch hthen hthenPlain)
      (hpart elseBranch helse helsePlain)
  | while_ line condition body =>
    exact Parallel.loop_runs (fun u hu => hev u k s s' condition hst.1 hs (ht.later hu))
      (hpart body hst.2.1 hst.2.2) settings.turns
  | function f =>
    have hk := hdeclares rfl
    obtain ⟨name, parameters, body⟩ := f
    refine (newFunction_runs ht hk (hs.bind hk name.lexeme true) id .function hst false).bind
      fun u g g' hu hg => ?_
    obtain ⟨hg, hname⟩ := hg
    rw [← hg.head_eq.1]
    exact (define_runs (ht.later hu) hk g.name (v := .function g) (w := .function g') hg).bind
      fun _ _ _ _ _ => .pure trivial
  | return_ keyword value =>
    cases value with
    | none => exact .pure trivial
    | some e => exact (hfirst e (hst.2 e rfl)).bind fun _ _ _ _ hv => .pure hv
  | class_ line name superclass methods =>
    have hk := hdeclares rfl
    exact (declareClass_runs hev ht hk hst.2.1 hst.2.2 (hs.bind hk name.lexeme true)).bind
      fun _ _ _ _ _ => .pure trivial

end forms

theorem evaluates_executes (settings : Settings) (nesting : Nat) :
    Evaluates (evaluate settings nesting) ∧ Executes (execute settings nesting) := by
  induction nesting with
  | zero => exact ⟨fun t _ _ _ _ _ _ _ => .throw _, fun t _ _ _ _ _ _ _ _ => .throw _⟩
  | succ nesting ih =>
    obtain ⟨hev, hex⟩ := ih
    refine ⟨fun t k s s' e he hs ht => evaluateForm_runs settings hev hex he hs ht,
      fun t k s s' st hst hplain hs ht => ?_⟩
    have htraced : (st.bound s').line = (st.bound s).line ∧
        (st.bound s').kind = (st.bound s).kind := by
      cases st with
      | function f => cases f; exact ⟨rfl, rfl⟩
      | _ => exact ⟨rfl, rfl⟩
    simp only [execute]
    rw [htraced.1, htraced.2]
    split
    · exact (emit_runs t _).bind fun u _ _ hu _ =>
        executeForm_runs settings hev hex hst hplain hs (ht.later hu)
    · exact executeForm_runs settings hev hex hst hplain hs ht

end Pair
end Lox

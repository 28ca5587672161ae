import Lox.Proofs.Acceptance
import Lox.Proofs.Renumbering
import Lox.Proofs.Resolution

/-! Programs on other lines. Tokens with their lines numbered anew derive the same program with its
lines numbered anew, and resolving that finds the same scopes and is wrong in the same places. -/

namespace Lox

namespace Grammar
variable (φ : Nat → Nat)

theorem Separated.map {f : Token → Token} (hf : ∀ t, (f t).kind = t.kind)
    {items : List (List Token)} {ts : List Token} (h : Separated items ts) :
    Separated (items.map (List.map f)) (ts.map f) := by
  induction h with
  | none => exact .none
  | one => exact .one
  | more comma _ ih =>
    rw [List.map_append, List.map_cons]
    exact .more ((hf _).trans comma) ih

/-- Items with their tokens and trees in other places. -/
theorem items_map (g : Token → Token) {α : Type} {Q : List Token → α → Prop} {f : α → α}
    {items : List (List Token × α)} (h : ∀ d ∈ items, Q (d.1.map g) (f d.2)) :
    ∃ others : List (List Token × α), (∀ d ∈ others, Q d.1 d.2) ∧
      others.map Prod.fst = (items.map Prod.fst).map (List.map g) ∧
      others.map Prod.snd = (items.map Prod.snd).map f ∧
      others.flatMap Prod.fst = (items.flatMap Prod.fst).map g := by
  refine ⟨items.map fun d => (d.1.map g, f d.2), ?_, ?_, ?_, ?_⟩
  · intro d hd
    obtain ⟨c, hc, rfl⟩ := List.mem_map.1 hd
    exact h c hc
  · simp
  · simp
  · simp [List.flatMap_map, List.map_flatMap]

variable {r : Nat} {ts : List Token}

/-- What derives is on the lines of its tokens. -/
theorem Derives.renumber {e : RawExpr} (h : Derives r ts e) :
    Derives r (ts.map (Token.renumber φ)) (e.renumber φ) := by
  induction h with
  | literal kind => exact .literal kind
  | this spelled => exact .this spelled
  | read named => exact .read named
  | super spelled dotted named => exact .super spelled dotted named
  | grouping opens _ closes ih =>
    rw [List.map_cons, List.map_append]
    exact .grouping opens ih closes
  | @call _ _ _ _ _ arguments _ opens _ few listed closes ih ihs =>
    obtain ⟨others, hinside, htokens, htrees, -⟩ := items_map (Token.renumber φ) ihs
    have hcount : others.length = arguments.length := by
      simpa using congrArg List.length htrees
    rw [Expr.renumber, Expr.renumberList_eq_map, ← htrees]
    simp only [List.map_append, List.map_cons]
    refine .call ih opens hinside (hcount ▸ few) ?_ closes
    rw [htokens]
    exact listed.map (Token.kind_renumber φ)
  | get _ dotted named ih =>
    rw [List.map_append]
    exact .get ih dotted named
  | unary sign _ ih => exact .unary sign ih
  | binary lowest highest _ joins _ ih ih' =>
    rw [List.map_append]
    exact .binary lowest highest ih joins ih'
  | logical lowest highest _ joins _ ih ih' =>
    rw [List.map_append]
    exact .logical lowest highest ih joins ih'
  | assign named sign _ ih => exact .assign named sign ih
  | set _ dotted named sign _ ih ih' =>
    rw [List.map_append]
    exact .set ih dotted named sign ih'
  | looser _ ih => exact .looser ih

theorem Optional.renumber {e : Option RawExpr} (h : Optional ts e) :
    Optional (ts.map (Token.renumber φ)) (e.map (Expr.renumber φ)) := by
  cases h with
  | none => exact .none
  | some value => exact .some (value.renumber φ)

theorem Parenthesized.renumber {e : RawExpr} (h : Parenthesized ts e) :
    Parenthesized (ts.map (Token.renumber φ)) (e.renumber φ) := by
  cases h with
  | mk opens inside closes =>
    rw [List.map_cons, List.map_append]
    exact .mk opens (inside.renumber φ) closes

theorem Initializer.renumber {e : Option RawExpr} (h : Initializer ts e) :
    Initializer (ts.map (Token.renumber φ)) (e.map (Expr.renumber φ)) := by
  cases h with
  | none => exact .none
  | some sign value => exact .some sign (value.renumber φ)

theorem Variable.renumber {s : RawStmt} (h : Variable ts s) :
    Variable (ts.map (Token.renumber φ)) (s.renumber φ) := by
  cases h with
  | mk spelled named initial ends =>
    rw [List.map_cons, List.map_cons, List.map_append]
    exact .mk spelled named (initial.renumber φ) ends

theorem Evaluation.renumber {s : RawStmt} (h : Evaluation ts s) :
    Evaluation (ts.map (Token.renumber φ)) (s.renumber φ) := by
  cases h with
  | mk value ends =>
    rw [List.map_cons, List.map_append]
    exact .mk (value.renumber φ) ends

theorem LoopInitializer.renumber {s : Option RawStmt} (h : LoopInitializer ts s) :
    LoopInitializer (ts.map (Token.renumber φ)) (s.map (Stmt.renumber φ)) := by
  cases h with
  | none ends => exact .none ends
  | variable_ declared => exact .variable_ (declared.renumber φ)
  | evaluation evaluated => exact .evaluation (evaluated.renumber φ)

theorem Inheritance.renumber {c : Option (Superclass Unit)} (h : Inheritance ts c) :
    Inheritance (ts.map (Token.renumber φ)) (c.map (Superclass.renumber φ)) := by
  cases h with
  | none => exact .none
  | some sign named => exact .some sign named

theorem renumber_desugarFor (line : Nat) (initializer : Option RawStmt)
    (condition increment : Option RawExpr) (body : RawStmt) :
    (Parser.desugarFor line initializer condition increment body).renumber φ =
      Parser.desugarFor (φ line) (initializer.map (Stmt.renumber φ))
        (condition.map (Expr.renumber φ)) (increment.map (Expr.renumber φ))
        (body.renumber φ) := by
  cases initializer <;> cases condition <;> cases increment <;> rfl

/-- What derives is on the lines of its tokens. -/
theorem Declaration.renumber {s : RawStmt} (h : Declaration ts s) :
    Declaration (ts.map (Token.renumber φ)) (s.renumber φ) := by
  refine @Declaration.rec
    (fun ts s _ => Declaration (ts.map (Token.renumber φ)) (s.renumber φ))
    (fun isOpen ts s _ => Statement isOpen (ts.map (Token.renumber φ)) (s.renumber φ))
    (fun ts f _ => Function (ts.map (Token.renumber φ)) (Stmt.renumberFunction φ f))
    ?class_ ?function ?variable_ ?statement ?evaluation ?print ?return_ ?block ?ifThen ?ifElse
    ?while_ ?for_ ?mk ts s h
  case class_ =>
    intro keyword name opening closing ts above methods spelled named inherits opens _ closes ih
    obtain ⟨others, hinside, -, htrees, htokens⟩ := items_map (Token.renumber φ) ih
    rw [Stmt.renumber, Stmt.renumberFunctions_eq_map, ← htrees]
    simp only [List.map_append, List.map_cons, ← htokens]
    exact .class_ spelled named (inherits.renumber φ) opens hinside closes
  case function =>
    intro keyword ts f spelled _ ih
    exact .function spelled ih
  case variable_ =>
    intro ts s declared
    exact .variable_ (declared.renumber φ)
  case statement =>
    intro isOpen ts s _ ih
    exact .statement ih
  case evaluation =>
    intro ts s evaluated
    exact .evaluation (evaluated.renumber φ)
  case print =>
    intro keyword semicolon ts e spelled value ends
    rw [List.map_cons, List.map_append]
    exact .print spelled (value.renumber φ) ends
  case return_ =>
    intro keyword semicolon ts e spelled returned ends
    rw [List.map_cons, List.map_append]
    exact .return_ spelled (returned.renumber φ) ends
  case block =>
    intro opening closing body opens _ closes ih
    obtain ⟨others, hinside, -, htrees, htokens⟩ := items_map (Token.renumber φ) ih
    rw [Stmt.renumber, Stmt.renumberList_eq_map, ← htrees]
    simp only [List.map_append, List.map_cons, ← htokens]
    exact .block opens hinside closes
  case ifThen =>
    intro isOpen keyword ts us condition thenBranch spelled tested _ ih
    rw [List.map_cons, List.map_append]
    exact .ifThen spelled (tested.renumber φ) ih
  case ifElse =>
    intro isOpen keyword else_ ts us vs condition thenBranch elseBranch spelled tested _ divides _
      ih ih'
    rw [List.map_cons, List.map_append, List.map_append]
    exact .ifElse spelled (tested.renumber φ) ih divides ih'
  case while_ =>
    intro isOpen keyword ts us condition body spelled tested _ ih
    rw [List.map_cons, List.map_append]
    exact .while_ spelled (tested.renumber φ) ih
  case for_ =>
    intro _ _ _ _ _ _ _ _ _ _ _ _ _ spelled opens initial tested divides advanced closes _ ih
    rw [← Parser.desugarFor_eq, renumber_desugarFor, Parser.desugarFor_eq]
    simp only [List.map_append, List.map_cons]
    exact .for_ spelled opens (initial.renumber φ) (tested.renumber φ) divides
      (advanced.renumber φ) closes ih
  case mk =>
    intro name opening closing begins ends parameters ts body named opens inputs few listed closes
      begins_ _ ends_ ih
    obtain ⟨others, hinside, -, htrees, htokens⟩ := items_map (Token.renumber φ) ih
    have hlisted := listed.map (Token.kind_renumber φ)
    rw [List.map_map] at hlisted
    rw [Stmt.renumberFunction, Stmt.renumberList_eq_map, ← htrees]
    simp only [List.map_append, List.map_cons, ← htokens]
    refine .mk named opens ?_ ?_ ?_ closes begins_ hinside ends_
    · intro t ht
      obtain ⟨p, hp, rfl⟩ := List.mem_map.1 ht
      exact inputs p hp
    · rw [List.length_map]
      exact few
    · rw [List.map_map]
      exact hlisted

theorem Program.renumber {ss : List RawStmt} (h : Program ts ss) :
    Program (ts.map (Token.renumber φ)) (Stmt.renumberList φ ss) := by
  obtain ⟨items, hitems, rfl, rfl⟩ := h
  obtain ⟨others, hothers, -, htrees, htokens⟩ :=
    items_map (Token.renumber φ) fun d hd => (hitems d hd).renumber φ
  rw [Stmt.renumberList_eq_map]
  exact ⟨others, hothers, htokens, htrees⟩

end Grammar

namespace Parse
variable (φ : Nat → Nat) {tokens : List Token}

theorem program_renumber (h : (program tokens).complaints = []) :
    program (tokens.map (Token.renumber φ)) =
      ⟨Stmt.renumberList φ (program tokens).value, []⟩ :=
  program_of_derives ((derives_of_complaints_eq_nil h).renumber φ)

/-- A program has no lines but those of its tokens. -/
theorem value_renumber_of_tokens (h : (program tokens).complaints = [])
    (hφ : ∀ t ∈ tokens, φ t.line = t.line) :
    Stmt.renumberList φ (program tokens).value = (program tokens).value := by
  have hfixed : tokens.map (Token.renumber φ) = tokens := by
    rw [List.map_congr_left (g := fun t => t), List.map_id']
    intro t ht
    rw [Token.renumber, hφ t ht]
    rfl
  have hprogram := program_renumber φ h
  rw [hfixed] at hprogram
  exact (congrArg Parse.value hprogram).symm

end Parse

variable (φ : Nat → Nat)

theorem StaticError.if_renumber (c : Prop) [Decidable c] (t : Token) (p : Problem) :
    (if c then [atToken (t.renumber φ) p] else []) =
      (if c then [atToken t p] else []).map (renumber φ) := by
  split <;> rfl

namespace Surroundings
variable (s : Surroundings) (name : Token)

@[simp] theorem redeclared_renumber :
    s.redeclared (name.renumber φ) = (s.redeclared name).map (StaticError.renumber φ) :=
  StaticError.if_renumber φ _ name _

@[simp] theorem misread_renumber :
    s.misread (name.renumber φ) = (s.misread name).map (StaticError.renumber φ) := by
  obtain ⟨scopes, pending, activation, context⟩ := s
  cases scopes with
  | nil => exact StaticError.if_renumber φ _ name _
  | cons scope scopes => exact StaticError.if_renumber φ _ name _

@[simp] theorem initializing_renumber :
    s.initializing (name.renumber φ) = s.initializing name := rfl

@[simp] theorem misusedThis_renumber :
    s.misusedThis (name.renumber φ) = (s.misusedThis name).map (StaticError.renumber φ) :=
  StaticError.if_renumber φ _ name _

@[simp] theorem misusedSuper_renumber :
    s.misusedSuper (name.renumber φ) = (s.misusedSuper name).map (StaticError.renumber φ) := by
  simp only [misusedSuper]
  split <;> rfl

@[simp] theorem misplacedReturn_renumber (value : Option RawExpr) :
    s.misplacedReturn (name.renumber φ) (value.map (Expr.renumber φ)) =
      (s.misplacedReturn name value).map (StaticError.renumber φ) := by
  simp only [misplacedReturn, Option.isSome_map, List.map_append, StaticError.if_renumber]

@[simp] theorem selfInherited_renumber (c : Superclass Unit) :
    selfInherited (name.renumber φ) (c.renumber φ) =
      (selfInherited name c).map (StaticError.renumber φ) :=
  StaticError.if_renumber φ _ c.name _

@[simp] theorem withParameters_renumber (parameters : List Token) :
    s.withParameters (parameters.map (Token.renumber φ)) = s.withParameters parameters :=
  List.foldl_map

@[simp] theorem repeatedParameters_renumber (parameters : List Token) :
    s.repeatedParameters (parameters.map (Token.renumber φ)) =
      (s.repeatedParameters parameters).map (StaticError.renumber φ) := by
  induction parameters generalizing s with
  | nil => rfl
  | cons p ps ih => simp [repeatedParameters, ih]

@[simp] theorem entering_renumber (activation : Activation) (parameters : List Token) :
    s.entering activation (parameters.map (Token.renumber φ)) =
      s.entering activation parameters := by
  simp [entering]

end Surroundings

namespace Expr

mutual

theorem bound_renumber (s : Surroundings) (e : RawExpr) :
    (e.renumber φ).bound s = (e.bound s).renumber φ := by
  cases e with
  | grouping line inner => simp [renumber, bound, bound_renumber s inner]
  | unary operator right => simp [renumber, bound, bound_renumber s right]
  | binary left operator right =>
    simp [renumber, bound, bound_renumber s left, bound_renumber s right]
  | logical left operator right =>
    simp [renumber, bound, bound_renumber s left, bound_renumber s right]
  | assign line name _ value => simp [renumber, bound, bound_renumber s value]
  | call callee paren arguments =>
    simp [renumber, bound, bound_renumber s callee, boundList_renumber s arguments]
  | get object name => simp [renumber, bound, bound_renumber s object]
  | set line object name value =>
    simp [renumber, bound, bound_renumber s object, bound_renumber s value]
  | _ => simp [renumber, bound]

theorem boundList_renumber (s : Surroundings) (es : List RawExpr) :
    boundList s (renumberList φ es) = renumberList φ (boundList s es) := by
  cases es with
  | nil => rfl
  | cons e es => simp [renumberList, boundList, bound_renumber s e, boundList_renumber s es]

end

mutual

theorem problems_renumber (s : Surroundings) (e : RawExpr) :
    (e.renumber φ).problems s = (e.problems s).map (StaticError.renumber φ) := by
  cases e with
  | grouping line inner => simp [renumber, problems, problems_renumber s inner]
  | unary operator right => simp [renumber, problems, problems_renumber s right]
  | binary left operator right =>
    simp [renumber, problems, problems_renumber s left, problems_renumber s right]
  | logical left operator right =>
    simp [renumber, problems, problems_renumber s left, problems_renumber s right]
  | assign line name _ value => simp [renumber, problems, problems_renumber s value]
  | call callee paren arguments =>
    simp [renumber, problems, problems_renumber s callee, problemsList_renumber s arguments]
  | get object name => simp [renumber, problems, problems_renumber s object]
  | set line object name value =>
    simp [renumber, problems, problems_renumber s object, problems_renumber s value]
  | _ => simp [renumber, problems]

theorem problemsList_renumber (s : Surroundings) (es : List RawExpr) :
    problemsList s (renumberList φ es) = (problemsList s es).map (StaticError.renumber φ) := by
  cases es with
  | nil => rfl
  | cons e es =>
    simp [renumberList, problemsList, problems_renumber s e, problemsList_renumber s es]

end

theorem problems?_renumber (s : Surroundings) (e : Option RawExpr) :
    problems? s (e.map (renumber φ)) = (problems? s e).map (StaticError.renumber φ) := by
  cases e with
  | none => rfl
  | some e => exact problems_renumber φ s e

end Expr

theorem Superclass.bound_renumber (s : Surroundings) (c : Superclass Unit) :
    (c.renumber φ).bound s = (c.bound s).renumber φ := rfl

theorem Resolver.methodActivation_renumber (f : RawFunction) :
    methodActivation (Stmt.renumberFunction φ f) = methodActivation f := by
  rw [methodActivation, f.isInitializer_renumber, methodActivation]

namespace Stmt

@[simp] theorem after_renumber (s : Surroundings) (st : RawStmt) :
    after s (st.renumber φ) = after s st := by
  fun_induction after s st <;> simp_all [renumber, renumberFunction, after]

mutual

theorem bound_renumber (s : Surroundings) (st : RawStmt) :
    (st.renumber φ).bound s = (st.bound s).renumber φ := by
  cases st with
  | expression line value => simp [renumber, bound, Expr.bound_renumber]
  | print line value => simp [renumber, bound, Expr.bound_renumber]
  | var name initializer => cases initializer <;> simp [renumber, bound, Expr.bound_renumber]
  | block line body => simp [renumber, bound, boundList_renumber _ body]
  | ifThen line condition thenBranch =>
    simp [renumber, bound, Expr.bound_renumber, bound_renumber _ thenBranch]
  | ifElse line condition thenBranch elseBranch =>
    simp [renumber, bound, Expr.bound_renumber, bound_renumber _ thenBranch,
      bound_renumber _ elseBranch]
  | while_ line condition body =>
    simp [renumber, bound, Expr.bound_renumber, bound_renumber _ body]
  | function f =>
    obtain ⟨name, parameters, body⟩ := f
    have h := functionBound_renumber (s.bind name.lexeme true) .function
      (.mk name parameters body)
    simpa [renumber, renumberFunction, bound] using h
  | return_ keyword value => cases value <;> simp [renumber, bound, Expr.bound_renumber]
  | class_ line name superclass methods =>
    cases superclass <;>
      simp [renumber, bound, Superclass.bound_renumber, methodsBound_renumber _ methods]

theorem boundList_renumber (s : Surroundings) (ss : List RawStmt) :
    boundList s (renumberList φ ss) = renumberList φ (boundList s ss) := by
  cases ss with
  | nil => rfl
  | cons st ss => simp [renumberList, boundList, bound_renumber _ st, boundList_renumber _ ss]

theorem functionBound_renumber (s : Surroundings) (activation : Activation) (f : RawFunction) :
    functionBound s activation (renumberFunction φ f) =
      renumberFunction φ (functionBound s activation f) := by
  obtain ⟨name, parameters, body⟩ := f
  simp [renumberFunction, functionBound, boundList_renumber _ body]

theorem methodsBound_renumber (s : Surroundings) (fs : List RawFunction) :
    methodsBound s (renumberFunctions φ fs) = renumberFunctions φ (methodsBound s fs) := by
  cases fs with
  | nil => rfl
  | cons f fs =>
    simp [renumberFunctions, methodsBound, Resolver.methodActivation_renumber,
      functionBound_renumber _ _ f, methodsBound_renumber _ fs]

end

mutual

theorem problems_renumber (s : Surroundings) (st : RawStmt) :
    (st.renumber φ).problems s = (st.problems s).map (StaticError.renumber φ) := by
  cases st with
  | expression line value => simp [renumber, problems, Expr.problems_renumber]
  | print line value => simp [renumber, problems, Expr.problems_renumber]
  | var name initializer => simp [renumber, problems, Expr.problems?_renumber]
  | block line body => simp [renumber, problems, problemsList_renumber _ body]
  | ifThen line condition thenBranch =>
    simp [renumber, problems, Expr.problems_renumber, problems_renumber _ thenBranch]
  | ifElse line condition thenBranch elseBranch =>
    simp [renumber, problems, Expr.problems_renumber, problems_renumber _ thenBranch,
      problems_renumber _ elseBranch]
  | while_ line condition body =>
    simp [renumber, problems, Expr.problems_renumber, problems_renumber _ body]
  | function f =>
    obtain ⟨name, parameters, body⟩ := f
    have h := functionProblems_renumber (s.bind name.lexeme true) .function
      (.mk name parameters body)
    rw [renumberFunction] at h
    simp [renumber, renumberFunction, problems, h]
  | return_ keyword value => simp [renumber, problems, Expr.problems?_renumber]
  | class_ line name superclass methods =>
    cases superclass <;> simp [renumber, problems, methodsProblems_renumber _ methods]

theorem problemsList_renumber (s : Surroundings) (ss : List RawStmt) :
    problemsList s (renumberList φ ss) = (problemsList s ss).map (StaticError.renumber φ) := by
  cases ss with
  | nil => rfl
  | cons st ss =>
    simp [renumberList, problemsList, problems_renumber _ st, problemsList_renumber _ ss]

theorem functionProblems_renumber (s : Surroundings) (activation : Activation)
    (f : RawFunction) :
    functionProblems s activation (renumberFunction φ f) =
      (functionProblems s activation f).map (StaticError.renumber φ) := by
  obtain ⟨name, parameters, body⟩ := f
  simp [renumberFunction, functionProblems, problemsList_renumber _ body]

theorem methodsProblems_renumber (s : Surroundings) (fs : List RawFunction) :
    methodsProblems s (renumberFunctions φ fs) =
      (methodsProblems s fs).map (StaticError.renumber φ) := by
  cases fs with
  | nil => rfl
  | cons f fs =>
    simp [renumberFunctions, methodsProblems, Resolver.methodActivation_renumber,
      functionProblems_renumber _ _ f, methodsProblems_renumber _ fs]

end
end Stmt

/-- A program on other lines has the same scopes and the same errors, on these lines. -/
theorem Resolution.ofProgram_renumber (program : List RawStmt) :
    ofProgram (Stmt.renumberList φ program) =
      ⟨Stmt.renumberList φ (ofProgram program).program,
        (ofProgram program).errors.map (StaticError.renumber φ)⟩ := by
  rw [ofProgram_eq, ofProgram_eq, Stmt.boundList_renumber, Stmt.problemsList_renumber]

end Lox

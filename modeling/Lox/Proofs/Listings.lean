import Lox.Proofs.Wording
import Lox.Syntax.Nodes

/-! Listings of programs. Two programs without strings have the same listing only if they are the
same tree, wherever the parts of it stand in their texts. -/

namespace Lox

/-! ### Trees without places -/

namespace Expr

mutual

/-- The tree with all its lines and columns zero. -/
def nowhere : RawExpr → RawExpr
  | literal _ value => literal 0 value
  | grouping _ inner => grouping 0 (nowhere inner)
  | unary operator right => unary operator.nowhere (nowhere right)
  | binary left operator right => binary (nowhere left) operator.nowhere (nowhere right)
  | logical left operator right => logical (nowhere left) operator.nowhere (nowhere right)
  | read name target => read name.nowhere target
  | assign _ name target value => assign 0 name.nowhere target (nowhere value)
  | call callee paren arguments => call (nowhere callee) paren.nowhere (nowhereList arguments)
  | get object name => get (nowhere object) name.nowhere
  | set _ object name value => set 0 (nowhere object) name.nowhere (nowhere value)
  | this keyword target => this keyword.nowhere target
  | super keyword target method => super keyword.nowhere target method.nowhere

def nowhereList : List RawExpr → List RawExpr
  | [] => []
  | e :: es => nowhere e :: nowhereList es

end
end Expr

def Superclass.nowhere (c : Superclass Unit) : Superclass Unit := { c with name := c.name.nowhere }

namespace Stmt

mutual

def nowhere : RawStmt → RawStmt
  | expression _ value => expression 0 value.nowhere
  | print _ value => print 0 value.nowhere
  | var name initializer => var name.nowhere (initializer.map Expr.nowhere)
  | block _ body => block 0 (nowhereList body)
  | ifThen _ condition thenBranch => ifThen 0 condition.nowhere (nowhere thenBranch)
  | ifElse _ condition thenBranch elseBranch =>
    ifElse 0 condition.nowhere (nowhere thenBranch) (nowhere elseBranch)
  | while_ _ condition body => while_ 0 condition.nowhere (nowhere body)
  | function declaration => function (functionNowhere declaration)
  | return_ keyword value => return_ keyword.nowhere (value.map Expr.nowhere)
  | class_ _ name superclass methods =>
    class_ 0 name.nowhere (superclass.map Superclass.nowhere) (functionsNowhere methods)

def nowhereList : List RawStmt → List RawStmt
  | [] => []
  | s :: ss => nowhere s :: nowhereList ss

def functionNowhere : RawFunction → RawFunction
  | .mk name parameters body =>
    .mk name.nowhere (parameters.map Token.nowhere) (nowhereList body)

def functionsNowhere : List RawFunction → List RawFunction
  | [] => []
  | f :: fs => functionNowhere f :: functionsNowhere fs

end
end Stmt

namespace Token

@[simp] theorem outline_nowhere (t : Token) : t.nowhere.outline = t.outline := rfl

@[simp] theorem outline_inj {t u : Token} : t.outline = u.outline ↔ t.lexeme = u.lexeme := by
  simp [outline]

end Token

namespace Expr

mutual

@[simp] theorem outline_nowhere (e : RawExpr) : e.nowhere.outline = e.outline := by
  cases e with
  | grouping _ inner => simp [nowhere, outline, outline_nowhere inner]
  | unary _ right => simp [nowhere, outline, outline_nowhere right]
  | binary left _ right | logical left _ right =>
    simp [nowhere, outline, outline_nowhere left, outline_nowhere right]
  | assign _ _ _ value => simp [nowhere, outline, outline_nowhere value]
  | call callee _ arguments =>
    simp [nowhere, outline, outline_nowhere callee, outlines_nowhereList arguments]
  | get object => simp [nowhere, outline, outline_nowhere object]
  | set _ object _ value =>
    simp [nowhere, outline, outline_nowhere object, outline_nowhere value]
  | _ => simp [nowhere, outline]

@[simp] theorem outlines_nowhereList (es : List RawExpr) :
    outlines (nowhereList es) = outlines es := by
  cases es with
  | nil => rfl
  | cons e es => simp [nowhereList, outlines, outline_nowhere e, outlines_nowhereList es]

end

@[simp] theorem outline?_nowhere (e : Option RawExpr) :
    outline? (e.map nowhere) = outline? e := by
  cases e <;> simp [outline?]

end Expr

namespace Stmt

mutual

theorem outline_nowhere (s : RawStmt) : s.nowhere.outline = s.outline := by
  cases s with
  | block _ body => simp [nowhere, outline, outlines_nowhereList body]
  | ifThen _ _ thenBranch => simp [nowhere, outline, outline_nowhere thenBranch]
  | ifElse _ _ thenBranch elseBranch =>
    simp [nowhere, outline, outline_nowhere thenBranch, outline_nowhere elseBranch]
  | while_ _ _ body => simp [nowhere, outline, outline_nowhere body]
  | function f => exact outline_functionNowhere f
  | class_ _ _ superclass methods =>
    simp only [nowhere, outline, outlines_functionsNowhere methods, Token.outline_nowhere]
    cases superclass <;> rfl
  | _ => simp [nowhere, outline]

theorem outlines_nowhereList (ss : List RawStmt) : outlines (nowhereList ss) = outlines ss := by
  cases ss with
  | nil => rfl
  | cons s ss => simp [nowhereList, outlines, outline_nowhere s, outlines_nowhereList ss]

theorem outline_functionNowhere (f : RawFunction) :
    functionOutline (functionNowhere f) = functionOutline f := by
  obtain ⟨name, parameters, body⟩ := f
  simp [functionNowhere, functionOutline, outlines_nowhereList body, Function.comp_def]

theorem outlines_functionsNowhere (fs : List RawFunction) :
    functionOutlines (functionsNowhere fs) = functionOutlines fs := by
  cases fs with
  | nil => rfl
  | cons f fs =>
    simp [functionsNowhere, functionOutlines, outline_functionNowhere f,
      outlines_functionsNowhere fs]

end

end Stmt

/-! ### Listings can be read back -/

def Node.isString {ρ : Type} : Node ρ → Bool
  | .expr (.literal _ value) => value.isString
  | _ => false

/-- None of the nodes is a string. -/
def Stringless {ρ : Type} (nodes : List (Node ρ)) : Prop := ∀ node ∈ nodes, node.isString = false

namespace Stringless
variable {ρ : Type} {node : Node ρ} {nodes nodes' : List (Node ρ)}

instance : Decidable (Stringless nodes) :=
  inferInstanceAs (Decidable (∀ node ∈ nodes, node.isString = false))

@[simp] theorem cons_iff :
    Stringless (node :: nodes) ↔ node.isString = false ∧ Stringless nodes :=
  List.forall_mem_cons

@[simp] theorem append_iff :
    Stringless (nodes ++ nodes') ↔ Stringless nodes ∧ Stringless nodes' :=
  List.forall_mem_append

end Stringless

namespace Outline
variable {kind name : String} {fields : List (String × Outline)} {value : Outline}

theorem readable_absent : absent.Readable := by
  show Word "None"
  decide

theorem ReadableFields.cons (hname : Word name) (hvalue : value.Readable)
    (hfields : ReadableFields fields) : ReadableFields ((name, value) :: fields) := by
  cases value with
  | text => exact ⟨⟨hname, Word.unbroken hvalue⟩, hfields⟩
  | _ => exact ⟨⟨hname, hvalue⟩, hfields⟩

theorem ReadableFields.word {w : String} (hname : Word name) (hw : Unbroken w)
    (hfields : ReadableFields fields) : ReadableFields ((name, .text w) :: fields) :=
  ⟨⟨hname, hw⟩, hfields⟩

theorem readable_form (hkind : Word kind) (hfields : ReadableFields fields) :
    (form kind fields).Readable :=
  ⟨List.cons_ne_nil _ _, ⟨⟨by decide, hkind.unbroken⟩, hfields⟩⟩

theorem form_inj {kind' : String} {fields' : List (String × Outline)} :
    form kind fields = form kind' fields' ↔ kind = kind' ∧ fields = fields' := by
  simp [form]

end Outline

namespace Token
variable {t : Token}

theorem readable_outline (h : t.Names Legible) : t.outline.Readable := word_of_names h

theorem readable_outlines {ts : List Token} (h : ∀ t ∈ ts, t.Names Legible) :
    Outline.ReadableItems (ts.map outline) := by
  induction ts with
  | nil => trivial
  | cons t ts ih =>
    obtain ⟨ht, hts⟩ := List.forall_mem_cons.1 h
    exact ⟨readable_outline ht, ih hts⟩

end Token

namespace Expr
open Outline

mutual

theorem readable_outline (e : RawExpr) (he : e.Apt Token.Legible) (hs : Stringless e.nodes) :
    e.outline.Readable := by
  cases e with
  | literal line value =>
    exact readable_form (by decide)
      (.word (by decide) (Literal.unbroken_listed (Stringless.cons_iff.1 hs).1) trivial)
  | grouping line inner =>
    simp only [nodes, Stringless.cons_iff] at hs
    exact readable_form (by decide) (.cons (by decide) (readable_outline inner he hs.2) trivial)
  | unary operator right =>
    simp only [nodes, Stringless.cons_iff] at hs
    exact readable_form (by decide) (.word (by decide) (Token.unbroken_of_operates he.1)
      (.cons (by decide) (readable_outline right he.2 hs.2) trivial))
  | binary left operator right | logical left operator right =>
    simp only [nodes, Stringless.cons_iff, Stringless.append_iff] at hs
    exact readable_form (by decide) (.word (by decide) (Token.unbroken_of_operates he.2.1)
      (.cons (by decide) (readable_outline left he.1 hs.1.2)
        (.cons (by decide) (readable_outline right he.2.2 hs.2) trivial)))
  | read name =>
    exact readable_form (by decide) (.cons (by decide) (Token.readable_outline he) trivial)
  | assign line name target value =>
    simp only [nodes, Stringless.cons_iff] at hs
    exact readable_form (by decide) (.cons (by decide) (Token.readable_outline he.1)
      (.cons (by decide) (readable_outline value he.2 hs.2) trivial))
  | call callee paren arguments =>
    simp only [nodes, Stringless.cons_iff, Stringless.append_iff] at hs
    exact readable_form (by decide) (.cons (by decide) (readable_outline callee he.1 hs.1.2)
      (.cons (by decide) (readable_outlines arguments he.2.2 hs.2) trivial))
  | get object name =>
    simp only [nodes, Stringless.cons_iff] at hs
    exact readable_form (by decide) (.cons (by decide) (readable_outline object he.1 hs.2)
      (.cons (by decide) (Token.readable_outline he.2) trivial))
  | set line object name value =>
    simp only [nodes, Stringless.cons_iff, Stringless.append_iff] at hs
    exact readable_form (by decide) (.cons (by decide) (readable_outline object he.1 hs.1.2)
      (.cons (by decide) (Token.readable_outline he.2.1)
        (.cons (by decide) (readable_outline value he.2.2 hs.2) trivial)))
  | this => exact readable_form (by decide) trivial
  | super keyword target method =>
    exact readable_form (by decide) (.cons (by decide) (Token.readable_outline he.2) trivial)

theorem readable_outlines (es : List RawExpr) (he : AptList Token.Legible es)
    (hs : Stringless (nodesList es)) : ReadableItems (outlines es) := by
  cases es with
  | nil => trivial
  | cons e es =>
    simp only [nodesList, Stringless.append_iff] at hs
    exact ⟨readable_outline e he.1 hs.1, readable_outlines es he.2 hs.2⟩

end

theorem readable_outline? {e : Option RawExpr} (he : Apt? Token.Legible e)
    (hs : Stringless (nodes? e)) : (outline? e).Readable := by
  cases e with
  | none => exact readable_absent
  | some e => exact e.readable_outline (he e rfl) hs

end Expr

namespace Stmt
open Outline

mutual

theorem readable_outline (s : RawStmt) (h : s.Apt Token.Legible) (hs : Stringless s.nodes) :
    s.outline.Readable := by
  cases s with
  | expression line value | print line value =>
    simp only [nodes, Stringless.cons_iff] at hs
    exact readable_form (by decide) (.cons (by decide) (value.readable_outline h hs.2) trivial)
  | var name initializer =>
    simp only [nodes, Stringless.cons_iff] at hs
    exact readable_form (by decide) (.cons (by decide) (Token.readable_outline h.1)
      (.cons (by decide) (Expr.readable_outline? h.2 hs.2) trivial))
  | block line body =>
    simp only [nodes, Stringless.cons_iff] at hs
    exact readable_form (by decide) (.cons (by decide) (readable_outlines body h hs.2) trivial)
  | ifThen line condition thenBranch =>
    simp only [nodes, Stringless.cons_iff, Stringless.append_iff] at hs
    exact readable_form (by decide)
      (.cons (by decide) (condition.readable_outline h.1 hs.1.2)
        (.cons (by decide) (readable_outline thenBranch h.2.1 hs.2)
          (.cons (by decide) readable_absent trivial)))
  | ifElse line condition thenBranch elseBranch =>
    simp only [nodes, Stringless.cons_iff, Stringless.append_iff] at hs
    exact readable_form (by decide)
      (.cons (by decide) (condition.readable_outline h.1 hs.1.1.2)
        (.cons (by decide) (readable_outline thenBranch h.2.1.1 hs.1.2)
          (.cons (by decide) (readable_outline elseBranch h.2.2.1 hs.2) trivial)))
  | while_ line condition body =>
    simp only [nodes, Stringless.cons_iff, Stringless.append_iff] at hs
    exact readable_form (by decide)
      (.cons (by decide) (condition.readable_outline h.1 hs.1.2)
        (.cons (by decide) (readable_outline body h.2.1 hs.2) trivial))
  | function f => exact readable_functionOutline f h hs
  | return_ keyword value =>
    simp only [nodes, Stringless.cons_iff] at hs
    exact readable_form (by decide)
      (.cons (by decide) (Expr.readable_outline? h.2 hs.2) trivial)
  | class_ line name superclass methods =>
    simp only [nodes, Stringless.cons_iff, Stringless.append_iff] at hs
    have habove : Expr.Apt? Token.Legible (superclass.map Superclass.expr) := by
      intro e he
      obtain ⟨c, hc, rfl⟩ := Option.map_eq_some_iff.1 he
      exact h.2.1 c hc
    exact readable_form (by decide) (.cons (by decide) (Token.readable_outline h.1)
      (.cons (by decide) (Expr.readable_outline? habove hs.1.2)
        (.cons (by decide) (readable_functionOutlines methods h.2.2 hs.2) trivial)))

theorem readable_outlines (ss : List RawStmt) (h : AptList Token.Legible ss)
    (hs : Stringless (nodesList ss)) : ReadableItems (outlines ss) := by
  cases ss with
  | nil => trivial
  | cons s ss =>
    simp only [nodesList, Stringless.append_iff] at hs
    exact ⟨readable_outline s h.1 hs.1, readable_outlines ss h.2 hs.2⟩

theorem readable_functionOutline (f : RawFunction) (h : FunctionApt Token.Legible f)
    (hs : Stringless (functionNodes f)) : (functionOutline f).Readable := by
  obtain ⟨name, parameters, body⟩ := f
  simp only [functionNodes, Stringless.cons_iff] at hs
  exact readable_form (by decide) (.cons (by decide) (Token.readable_outline h.1)
    (.cons (by decide) (Token.readable_outlines h.2.1)
      (.cons (by decide) (readable_outlines body h.2.2 hs.2) trivial)))

theorem readable_functionOutlines (fs : List RawFunction) (h : MethodsApt Token.Legible fs)
    (hs : Stringless (functionNodesList fs)) : ReadableItems (functionOutlines fs) := by
  cases fs with
  | nil => trivial
  | cons f fs =>
    simp only [functionNodesList, Stringless.append_iff] at hs
    exact ⟨readable_functionOutline f h.1 hs.1, readable_functionOutlines fs h.2 hs.2⟩

end
end Stmt

/-! ### Outlines tell trees apart -/

namespace Token
variable {t u : Token}

theorem nowhere_of_outline (ht : t.Legible) (hu : u.Legible) (h : t.outline = u.outline) :
    t.nowhere = u.nowhere :=
  nowhere_of_lexeme ht hu (outline_inj.1 h)

theorem map_nowhere_of_outlines {ts us : List Token} (ht : ∀ t ∈ ts, t.Names Legible)
    (hu : ∀ u ∈ us, u.Names Legible) (h : ts.map outline = us.map outline) :
    ts.map nowhere = us.map nowhere := by
  induction ts generalizing us with
  | nil =>
    cases us with
    | nil => rfl
    | cons u us => cases h
  | cons t ts ih =>
    cases us with
    | nil => cases h
    | cons u us =>
      obtain ⟨ht, hts⟩ := List.forall_mem_cons.1 ht
      obtain ⟨hu, hus⟩ := List.forall_mem_cons.1 hu
      rw [List.map_cons, List.map_cons, List.cons.injEq] at h
      rw [List.map_cons, List.map_cons, nowhere_of_outline ht.good hu.good h.1, ih hts hus h.2]

end Token

namespace Expr

theorem outline_eq_form (e : RawExpr) : ∃ fields, e.outline = .form e.kind fields := by
  cases e <;> exact ⟨_, rfl⟩

theorem outline_ne_absent (e : RawExpr) : e.outline ≠ .absent := by
  obtain ⟨fields, he⟩ := e.outline_eq_form
  rw [he]
  exact nofun

theorem kind_of_outline {e e' : RawExpr} (h : e.outline = e'.outline) : e.kind = e'.kind := by
  obtain ⟨fields, he⟩ := e.outline_eq_form
  obtain ⟨fields', he'⟩ := e'.outline_eq_form
  rw [he, he', Outline.form_inj] at h
  exact h.1

mutual

theorem nowhere_of_outline (e e' : RawExpr) (he : e.Apt Token.Legible)
    (he' : e'.Apt Token.Legible) (hs : Stringless e.nodes) (hs' : Stringless e'.nodes)
    (h : e.outline = e'.outline) : e.nowhere = e'.nowhere := by
  have hkind := kind_of_outline h
  cases e with
  | literal line value =>
    cases e' with
    | literal line' value' =>
      simp only [outline, Outline.form_inj, List.cons.injEq, Prod.mk.injEq, Outline.text.injEq,
        true_and, and_true] at h
      simp only [nodes, Stringless.cons_iff] at hs hs'
      rw [nowhere, nowhere, Literal.listed_inj hs.1 hs'.1 h]
    | _ => simp [kind] at hkind
  | grouping line inner =>
    cases e' with
    | grouping line' inner' =>
      simp only [outline, Outline.form_inj, List.cons.injEq, Prod.mk.injEq, true_and, and_true] at h
      simp only [nodes, Stringless.cons_iff] at hs hs'
      rw [nowhere, nowhere, nowhere_of_outline inner inner' he he' hs.2 hs'.2 h]
    | _ => simp [kind] at hkind
  | unary operator right =>
    cases e' with
    | unary operator' right' =>
      simp only [outline, Outline.form_inj, List.cons.injEq, Prod.mk.injEq, true_and, and_true] at h
      simp only [nodes, Stringless.cons_iff] at hs hs'
      have hright := nowhere_of_outline right right' he.2 he'.2 hs.2 hs'.2 h.2
      rw [nowhere, nowhere, Token.nowhere_of_outline he.1.good he'.1.good h.1, hright]
    | _ => simp [kind] at hkind
  | binary left operator right =>
    cases e' with
    | binary left' operator' right' =>
      simp only [outline, Outline.form_inj, List.cons.injEq, Prod.mk.injEq, true_and, and_true] at h
      simp only [nodes, Stringless.cons_iff, Stringless.append_iff] at hs hs'
      have hleft := nowhere_of_outline left left' he.1 he'.1 hs.1.2 hs'.1.2 h.2.1
      have hright := nowhere_of_outline right right' he.2.2 he'.2.2 hs.2 hs'.2 h.2.2
      rw [nowhere, nowhere, Token.nowhere_of_outline he.2.1.good he'.2.1.good h.1, hleft, hright]
    | _ => simp [kind] at hkind
  | logical left operator right =>
    cases e' with
    | logical left' operator' right' =>
      simp only [outline, Outline.form_inj, List.cons.injEq, Prod.mk.injEq, true_and, and_true] at h
      simp only [nodes, Stringless.cons_iff, Stringless.append_iff] at hs hs'
      have hleft := nowhere_of_outline left left' he.1 he'.1 hs.1.2 hs'.1.2 h.2.1
      have hright := nowhere_of_outline right right' he.2.2 he'.2.2 hs.2 hs'.2 h.2.2
      rw [nowhere, nowhere, Token.nowhere_of_outline he.2.1.good he'.2.1.good h.1, hleft, hright]
    | _ => simp [kind] at hkind
  | read name target =>
    cases e' with
    | read name' target' =>
      simp only [outline, Outline.form_inj, List.cons.injEq, Prod.mk.injEq, true_and, and_true] at h
      rw [nowhere, nowhere, Token.nowhere_of_outline he.good he'.good h]
    | _ => simp [kind] at hkind
  | assign line name target value =>
    cases e' with
    | assign line' name' target' value' =>
      simp only [outline, Outline.form_inj, List.cons.injEq, Prod.mk.injEq, true_and, and_true] at h
      simp only [nodes, Stringless.cons_iff] at hs hs'
      have hvalue := nowhere_of_outline value value' he.2 he'.2 hs.2 hs'.2 h.2
      rw [nowhere, nowhere, Token.nowhere_of_outline he.1.good he'.1.good h.1, hvalue]
    | _ => simp [kind] at hkind
  | call callee paren arguments =>
    cases e' with
    | call callee' paren' arguments' =>
      simp only [outline, Outline.form_inj, List.cons.injEq, Prod.mk.injEq, Outline.list.injEq,
        true_and, and_true] at h
      simp only [nodes, Stringless.cons_iff, Stringless.append_iff] at hs hs'
      have hcallee := nowhere_of_outline callee callee' he.1 he'.1 hs.1.2 hs'.1.2 h.1
      have harguments :=
        nowhereList_of_outlines arguments arguments' he.2.2 he'.2.2 hs.2 hs'.2 h.2
      rw [nowhere, nowhere, Token.nowhere_of_rightParen he.2.1 he'.2.1, hcallee, harguments]
    | _ => simp [kind] at hkind
  | get object name =>
    cases e' with
    | get object' name' =>
      simp only [outline, Outline.form_inj, List.cons.injEq, Prod.mk.injEq, true_and, and_true] at h
      simp only [nodes, Stringless.cons_iff] at hs hs'
      have hobject := nowhere_of_outline object object' he.1 he'.1 hs.2 hs'.2 h.1
      rw [nowhere, nowhere, Token.nowhere_of_outline he.2.good he'.2.good h.2, hobject]
    | _ => simp [kind] at hkind
  | set line object name value =>
    cases e' with
    | set line' object' name' value' =>
      simp only [outline, Outline.form_inj, List.cons.injEq, Prod.mk.injEq, true_and, and_true] at h
      simp only [nodes, Stringless.cons_iff, Stringless.append_iff] at hs hs'
      have hobject := nowhere_of_outline object object' he.1 he'.1 hs.1.2 hs'.1.2 h.1
      have hvalue := nowhere_of_outline value value' he.2.2 he'.2.2 hs.2 hs'.2 h.2.2
      rw [nowhere, nowhere, Token.nowhere_of_outline he.2.1.good he'.2.1.good h.2.1, hobject,
        hvalue]
    | _ => simp [kind] at hkind
  | this keyword target =>
    cases e' with
    | this keyword' target' => rw [nowhere, nowhere, Token.nowhere_of_keyword he he']
    | _ => simp [kind] at hkind
  | super keyword target method =>
    cases e' with
    | super keyword' target' method' =>
      simp only [outline, Outline.form_inj, List.cons.injEq, Prod.mk.injEq, true_and, and_true] at h
      have hmethod := Token.nowhere_of_outline he.2.good he'.2.good h
      rw [nowhere, nowhere, Token.nowhere_of_keyword he.1 he'.1, hmethod]
    | _ => simp [kind] at hkind

theorem nowhereList_of_outlines (es es' : List RawExpr) (he : AptList Token.Legible es)
    (he' : AptList Token.Legible es') (hs : Stringless (nodesList es))
    (hs' : Stringless (nodesList es')) (h : outlines es = outlines es') :
    nowhereList es = nowhereList es' := by
  cases es with
  | nil =>
    cases es' with
    | nil => rfl
    | cons e' es' => cases h
  | cons e es =>
    cases es' with
    | nil => cases h
    | cons e' es' =>
      simp only [outlines, List.cons.injEq] at h
      simp only [nodesList, Stringless.append_iff] at hs hs'
      rw [nowhereList, nowhereList, nowhere_of_outline e e' he.1 he'.1 hs.1 hs'.1 h.1,
        nowhereList_of_outlines es es' he.2 he'.2 hs.2 hs'.2 h.2]

end

theorem map_nowhere_of_outline? {e e' : Option RawExpr} (he : Apt? Token.Legible e)
    (he' : Apt? Token.Legible e') (hs : Stringless (nodes? e)) (hs' : Stringless (nodes? e'))
    (h : outline? e = outline? e') : e.map nowhere = e'.map nowhere := by
  cases e with
  | none =>
    cases e' with
    | none => rfl
    | some e' => exact absurd h.symm e'.outline_ne_absent
  | some e =>
    cases e' with
    | none => exact absurd h e.outline_ne_absent
    | some e' =>
      exact congrArg some (nowhere_of_outline e e' (he e rfl) (he' e' rfl) hs hs' h)

end Expr

namespace Stmt

theorem outline_eq_form (s : RawStmt) : ∃ fields, s.outline = .form s.kind fields := by
  cases s with
  | function f =>
    obtain ⟨name, parameters, body⟩ := f
    exact ⟨_, rfl⟩
  | _ => exact ⟨_, rfl⟩

theorem outline_ne_absent (s : RawStmt) : s.outline ≠ .absent := by
  obtain ⟨fields, hs⟩ := s.outline_eq_form
  rw [hs]
  exact nofun

theorem kind_of_outline {s s' : RawStmt} (h : s.outline = s'.outline) : s.kind = s'.kind := by
  obtain ⟨fields, hs⟩ := s.outline_eq_form
  obtain ⟨fields', hs'⟩ := s'.outline_eq_form
  rw [hs, hs', Outline.form_inj] at h
  exact h.1

theorem superclass_nowhere_of_outline {c c' : Option (Superclass Unit)}
    (hc : ∀ s ∈ c, s.name.Names Token.Legible) (hc' : ∀ s ∈ c', s.name.Names Token.Legible)
    (h : Expr.outline? (c.map Superclass.expr) = Expr.outline? (c'.map Superclass.expr)) :
    c.map Superclass.nowhere = c'.map Superclass.nowhere := by
  cases c with
  | none =>
    cases c' with
    | none => rfl
    | some c' => exact absurd h.symm (Expr.outline_ne_absent _)
  | some c =>
    cases c' with
    | none => exact absurd h (Expr.outline_ne_absent _)
    | some c' =>
      simp only [Option.map_some, Expr.outline?, Superclass.expr, Expr.outline, Outline.form_inj,
        List.cons.injEq, Prod.mk.injEq, true_and, and_true] at h
      have hname := Token.nowhere_of_outline (hc c rfl).good (hc' c' rfl).good h
      rw [Option.map_some, Option.map_some, Superclass.nowhere, Superclass.nowhere, hname]

mutual

theorem nowhere_of_outline (s s' : RawStmt) (hp : s.Apt Token.Legible)
    (hp' : s'.Apt Token.Legible) (hs : Stringless s.nodes) (hs' : Stringless s'.nodes)
    (h : s.outline = s'.outline) : s.nowhere = s'.nowhere := by
  have hkind := kind_of_outline h
  cases s with
  | expression line value =>
    cases s' with
    | expression line' value' =>
      simp only [outline, Outline.form_inj, List.cons.injEq, Prod.mk.injEq, true_and, and_true] at h
      simp only [nodes, Stringless.cons_iff] at hs hs'
      have hvalue := value.nowhere_of_outline value' hp hp' hs.2 hs'.2 h
      rw [nowhere, nowhere, hvalue]
    | _ => simp [kind] at hkind
  | print line value =>
    cases s' with
    | print line' value' =>
      simp only [outline, Outline.form_inj, List.cons.injEq, Prod.mk.injEq, true_and, and_true] at h
      simp only [nodes, Stringless.cons_iff] at hs hs'
      have hvalue := value.nowhere_of_outline value' hp hp' hs.2 hs'.2 h
      rw [nowhere, nowhere, hvalue]
    | _ => simp [kind] at hkind
  | var name initializer =>
    cases s' with
    | var name' initializer' =>
      simp only [outline, Outline.form_inj, List.cons.injEq, Prod.mk.injEq, true_and, and_true] at h
      simp only [nodes, Stringless.cons_iff] at hs hs'
      have hinitial := Expr.map_nowhere_of_outline? hp.2 hp'.2 hs.2 hs'.2 h.2
      rw [nowhere, nowhere, Token.nowhere_of_outline hp.1.good hp'.1.good h.1, hinitial]
    | _ => simp [kind] at hkind
  | block line body =>
    cases s' with
    | block line' body' =>
      simp only [outline, Outline.form_inj, List.cons.injEq, Prod.mk.injEq, Outline.list.injEq,
        true_and, and_true] at h
      simp only [nodes, Stringless.cons_iff] at hs hs'
      have hbody := nowhereList_of_outlines body body' hp hp' hs.2 hs'.2 h
      rw [nowhere, nowhere, hbody]
    | _ => simp [kind] at hkind
  | ifThen line condition thenBranch =>
    cases s' with
    | ifThen line' condition' thenBranch' =>
      simp only [outline, Outline.form_inj, List.cons.injEq, Prod.mk.injEq, true_and, and_true] at h
      simp only [nodes, Stringless.cons_iff, Stringless.append_iff] at hs hs'
      have hcondition := condition.nowhere_of_outline condition' hp.1 hp'.1 hs.1.2 hs'.1.2 h.1
      have hthen := nowhere_of_outline thenBranch thenBranch' hp.2.1 hp'.2.1 hs.2 hs'.2 h.2
      rw [nowhere, nowhere, hcondition, hthen]
    | ifElse line' condition' thenBranch' elseBranch' =>
      simp only [outline, Outline.form_inj, List.cons.injEq, Prod.mk.injEq, true_and, and_true] at h
      exact absurd h.2.2.symm (outline_ne_absent elseBranch')
    | _ => simp [kind] at hkind
  | ifElse line condition thenBranch elseBranch =>
    cases s' with
    | ifElse line' condition' thenBranch' elseBranch' =>
      simp only [outline, Outline.form_inj, List.cons.injEq, Prod.mk.injEq, true_and, and_true] at h
      simp only [nodes, Stringless.cons_iff, Stringless.append_iff] at hs hs'
      have hcondition :=
        condition.nowhere_of_outline condition' hp.1 hp'.1 hs.1.1.2 hs'.1.1.2 h.1
      have hthen :=
        nowhere_of_outline thenBranch thenBranch' hp.2.1.1 hp'.2.1.1 hs.1.2 hs'.1.2 h.2.1
      have helse :=
        nowhere_of_outline elseBranch elseBranch' hp.2.2.1 hp'.2.2.1 hs.2 hs'.2 h.2.2
      rw [nowhere, nowhere, hcondition, hthen, helse]
    | ifThen line' condition' thenBranch' =>
      simp only [outline, Outline.form_inj, List.cons.injEq, Prod.mk.injEq, true_and, and_true] at h
      exact absurd h.2.2 (outline_ne_absent elseBranch)
    | _ => simp [kind] at hkind
  | while_ line condition body =>
    cases s' with
    | while_ line' condition' body' =>
      simp only [outline, Outline.form_inj, List.cons.injEq, Prod.mk.injEq, true_and, and_true] at h
      simp only [nodes, Stringless.cons_iff, Stringless.append_iff] at hs hs'
      have hcondition := condition.nowhere_of_outline condition' hp.1 hp'.1 hs.1.2 hs'.1.2 h.1
      have hbody := nowhere_of_outline body body' hp.2.1 hp'.2.1 hs.2 hs'.2 h.2
      rw [nowhere, nowhere, hcondition, hbody]
    | _ => simp [kind] at hkind
  | function f =>
    cases s' with
    | function f' =>
      rw [nowhere, nowhere, functionNowhere_of_outline f f' hp hp' hs hs' h]
    | _ => simp [kind] at hkind
  | return_ keyword value =>
    cases s' with
    | return_ keyword' value' =>
      simp only [outline, Outline.form_inj, List.cons.injEq, Prod.mk.injEq, true_and, and_true] at h
      simp only [nodes, Stringless.cons_iff] at hs hs'
      have hvalue := Expr.map_nowhere_of_outline? hp.2 hp'.2 hs.2 hs'.2 h
      rw [nowhere, nowhere, Token.nowhere_of_keyword hp.1 hp'.1, hvalue]
    | _ => simp [kind] at hkind
  | class_ line name superclass methods =>
    cases s' with
    | class_ line' name' superclass' methods' =>
      simp only [outline, Outline.form_inj, List.cons.injEq, Prod.mk.injEq, Outline.list.injEq,
        true_and, and_true] at h
      simp only [nodes, Stringless.cons_iff, Stringless.append_iff] at hs hs'
      have habove := superclass_nowhere_of_outline hp.2.1 hp'.2.1 h.2.1
      have hmethods :=
        functionsNowhere_of_outlines methods methods' hp.2.2 hp'.2.2 hs.2 hs'.2 h.2.2
      rw [nowhere, nowhere, Token.nowhere_of_outline hp.1.good hp'.1.good h.1, habove, hmethods]
    | _ => simp [kind] at hkind
termination_by structural s

theorem nowhereList_of_outlines (ss ss' : List RawStmt) (hp : AptList Token.Legible ss)
    (hp' : AptList Token.Legible ss') (hs : Stringless (nodesList ss))
    (hs' : Stringless (nodesList ss')) (h : outlines ss = outlines ss') :
    nowhereList ss = nowhereList ss' := by
  cases ss with
  | nil =>
    cases ss' with
    | nil => rfl
    | cons s' ss' => cases h
  | cons s ss =>
    cases ss' with
    | nil => cases h
    | cons s' ss' =>
      simp only [outlines, List.cons.injEq] at h
      simp only [nodesList, Stringless.append_iff] at hs hs'
      rw [nowhereList, nowhereList, nowhere_of_outline s s' hp.1 hp'.1 hs.1 hs'.1 h.1,
        nowhereList_of_outlines ss ss' hp.2 hp'.2 hs.2 hs'.2 h.2]
termination_by structural ss

theorem functionNowhere_of_outline (f f' : RawFunction) (hp : FunctionApt Token.Legible f)
    (hp' : FunctionApt Token.Legible f') (hs : Stringless (functionNodes f))
    (hs' : Stringless (functionNodes f')) (h : functionOutline f = functionOutline f') :
    functionNowhere f = functionNowhere f' := by
  obtain ⟨name, parameters, body⟩ := f
  obtain ⟨name', parameters', body'⟩ := f'
  simp only [functionOutline, Outline.form_inj, List.cons.injEq, Prod.mk.injEq,
    Outline.list.injEq, true_and, and_true] at h
  simp only [functionNodes, Stringless.cons_iff] at hs hs'
  have hparameters := Token.map_nowhere_of_outlines hp.2.1 hp'.2.1 h.2.1
  have hbody := nowhereList_of_outlines body body' hp.2.2 hp'.2.2 hs.2 hs'.2 h.2.2
  rw [functionNowhere, functionNowhere, Token.nowhere_of_outline hp.1.good hp'.1.good h.1,
    hparameters, hbody]
termination_by structural f

theorem functionsNowhere_of_outlines (fs fs' : List RawFunction)
    (hp : MethodsApt Token.Legible fs) (hp' : MethodsApt Token.Legible fs')
    (hs : Stringless (functionNodesList fs)) (hs' : Stringless (functionNodesList fs'))
    (h : functionOutlines fs = functionOutlines fs') :
    functionsNowhere fs = functionsNowhere fs' := by
  cases fs with
  | nil =>
    cases fs' with
    | nil => rfl
    | cons f' fs' => cases h
  | cons f fs =>
    cases fs' with
    | nil => cases h
    | cons f' fs' =>
      simp only [functionOutlines, List.cons.injEq] at h
      simp only [functionNodesList, Stringless.append_iff] at hs hs'
      rw [functionsNowhere, functionsNowhere,
        functionNowhere_of_outline f f' hp.1 hp'.1 hs.1 hs'.1 h.1,
        functionsNowhere_of_outlines fs fs' hp.2 hp'.2 hs.2 hs'.2 h.2]
termination_by structural fs

end

/-- What is read from two texts, if it holds no string, has the same listing exactly if it is the
same tree up to lines and columns. -/
theorem listing_eq_iff (text text' : String) :
    let program := (Parse.program (Scan.ofText text).tokens).value
    let program' := (Parse.program (Scan.ofText text').tokens).value
    Stringless (nodesList program) → Stringless (nodesList program') →
      (listing program = listing program' ↔ nowhereList program = nowhereList program') := by
  intro program program' hs hs'
  have hp : AptList Token.Legible program := Parse.program_apt (Scan.ofText_legible text)
  have hp' : AptList Token.Legible program' := Parse.program_apt (Scan.ofText_legible text')
  have hread : listing program = listing program' ↔
      Outline.list (outlines program) = .list (outlines program') :=
    Outline.render_inj (readable_outlines program hp hs) (readable_outlines program' hp' hs')
  rw [hread, Outline.list.injEq]
  constructor
  · exact nowhereList_of_outlines program program' hp hp' hs hs'
  · intro h
    rw [← outlines_nowhereList program, h, outlines_nowhereList program']

theorem listing_respaced :
    let program := (Parse.program (Scan.ofText
      "class A < B { m(x) { return; } }\nif (!a) print 1.50; else { }").tokens).value
    let program' := (Parse.program (Scan.ofText
      "class A<B{m(x){return;}} // again\n\nif(!a)print 1.5;else{}").tokens).value
    Stringless (nodesList program) ∧ Stringless (nodesList program') ∧
      listing program = listing program' ∧ nowhereList program = nowhereList program' := by
  intro program program'
  have hs : Stringless (nodesList program) := by decide +kernel
  have hs' : Stringless (nodesList program') := by decide +kernel
  have h : listing program = listing program' := by decide +kernel
  exact ⟨hs, hs', h, (listing_eq_iff _ _ hs hs').1 h⟩

end Stmt
end Lox

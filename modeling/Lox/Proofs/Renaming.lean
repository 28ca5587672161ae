import Lox.Proofs.Placement

/-! Renaming of local variables. A variable or parameter gets a new name together with the uses
that resolve to it. What is known of scopes at a place stays the same but for spelling. -/

namespace Lox

/-- A new name for local variables and parameters. -/
structure Renaming where
  old : String
  new : String
  /-- The declarations that are meant, by the token of the name. A token tells where it stands. -/
  chosen : Token → Bool
  ne : old ≠ new
  old_isName : Kind.ofWord old = .identifier
  new_isName : Kind.ofWord new = .identifier

/-- The mark of the scope so many scopes out. -/
def markOf (marks : List Bool) : Hops → Bool
  | some d => marks.getD d false
  | none => false

namespace Stmt
variable {ρ : Type}

/-- The name that a variable is declared by. -/
def varName? : Stmt ρ → Option Token
  | var name _ => some name
  | _ => none

/-- Whether a function or a class of the name is declared. -/
def isNamed (name : String) : Stmt ρ → Bool
  | function declaration => declaration.name.lexeme == name
  | class_ _ n _ _ => n.lexeme == name
  | _ => false

end Stmt

namespace Renaming
variable (r : Renaming)

def spelling (mark : Bool) (name : String) : String :=
  if mark = true ∧ name = r.old then r.new else name

def spell (mark : Bool) (name : Token) : Token :=
  { name with lexeme := r.spelling mark name.lexeme }

/-- Whether a variable or parameter of the scope is renamed. Functions and classes show their names,
so they keep them. -/
def marks {ρ : Type} (parameters : List Token) (body : List (Stmt ρ)) : Bool :=
  (parameters ++ body.filterMap Stmt.varName?).any (fun t => t.lexeme == r.old && r.chosen t) &&
    !body.any (Stmt.isNamed r.old)

end Renaming

namespace Expr
variable (r : Renaming) (marks : List Bool)

mutual

/-- For each scope around the expression there is a mark, the innermost first. -/
def renamed : BoundExpr → BoundExpr
  | literal line value => literal line value
  | grouping line inner => grouping line (renamed inner)
  | unary operator right => unary operator (renamed right)
  | binary left operator right => binary (renamed left) operator (renamed right)
  | logical left operator right => logical (renamed left) operator (renamed right)
  | read name target => read (r.spell (markOf marks target) name) target
  | assign line name target value =>
    assign line (r.spell (markOf marks target) name) target (renamed value)
  | call callee paren arguments => call (renamed callee) paren (renamedList arguments)
  | get object name => get (renamed object) name
  | set line object name value => set line (renamed object) name (renamed value)
  | this keyword target => this keyword target
  | super keyword target method => super keyword target method

def renamedList : List BoundExpr → List BoundExpr
  | [] => []
  | e :: es => renamed e :: renamedList es

end
end Expr

def Superclass.renamed (r : Renaming) (marks : List Bool) (c : Superclass Hops) : Superclass Hops :=
  { c with name := r.spell (markOf marks c.target) c.name }

namespace Stmt
variable (r : Renaming)

/-- Around the methods of a class, `this` and for a subclass `super` have scopes of their own. -/
def methodMarks (isSubclass : Bool) (marks : List Bool) : List Bool :=
  false :: if isSubclass then false :: marks else marks

mutual

def renamed (marks : List Bool) : BoundStmt → BoundStmt
  | expression line value => expression line (value.renamed r marks)
  | print line value => print line (value.renamed r marks)
  | var name initializer =>
    var (r.spell (marks.headD false) name) (initializer.map (Expr.renamed r marks))
  | block line body => block line (renamedList (r.marks [] body :: marks) body)
  | ifThen line condition thenBranch =>
    ifThen line (condition.renamed r marks) (renamed marks thenBranch)
  | ifElse line condition thenBranch elseBranch =>
    ifElse line (condition.renamed r marks) (renamed marks thenBranch) (renamed marks elseBranch)
  | while_ line condition body => while_ line (condition.renamed r marks) (renamed marks body)
  | function declaration => function (renamedFunction marks declaration)
  | return_ keyword value => return_ keyword (value.map (Expr.renamed r marks))
  | class_ line name superclass methods =>
    class_ line name (superclass.map (Superclass.renamed r marks))
      (renamedMethods (methodMarks superclass.isSome marks) methods)

def renamedList (marks : List Bool) : List BoundStmt → List BoundStmt
  | [] => []
  | s :: ss => renamed marks s :: renamedList marks ss

def renamedFunction (marks : List Bool) : BoundFunction → BoundFunction
  | .mk name parameters body =>
    let mark := r.marks parameters body
    .mk name (parameters.map (r.spell mark)) (renamedList (mark :: marks) body)

def renamedMethods (marks : List Bool) : List BoundFunction → List BoundFunction
  | [] => []
  | f :: fs => renamedFunction marks f :: renamedMethods marks fs

end

/-- The program with its variables renamed. -/
def renamedProgram (program : List BoundStmt) : List BoundStmt := renamedList r [] program

end Stmt

namespace Renaming
variable {r : Renaming} {mark mark' : Bool} {x y : String}

theorem spelling_false (r : Renaming) (x : String) : r.spelling false x = x := by
  simp [spelling]

theorem spelling_of_ne (h : x ≠ r.old) (mark : Bool) : r.spelling mark x = x :=
  if_neg fun hx => h hx.2

/-- Of the two spellings of the name, a scope has the one of its mark. -/
theorem spelling_ne (h : x ≠ r.new) (mark : Bool) :
    r.spelling mark x ≠ r.spelling (!mark) r.old := by
  have hne := r.ne
  by_cases hx : x = r.old
  · subst hx
    cases mark <;> simp [spelling, hne, Ne.symm hne]
  · rw [spelling_of_ne hx]
    cases mark <;> simp [spelling, h, hx]

theorem eq_of_spelling_eq (hx : mark = true → x ≠ r.new) (hy : mark = true → y ≠ r.new)
    (h : r.spelling mark x = r.spelling mark y) : x = y := by
  unfold spelling at h
  split at h <;> split at h
  · next h₁ h₂ => rw [h₁.2, h₂.2]
  · next h₁ _ => exact absurd h.symm (hy h₁.1)
  · next _ h₂ => exact absurd h (hx h₂.1)
  · exact h

theorem ne_of_keyword {word : String} {w : Keyword} (hw : Kind.ofWord word = .keyword w) :
    word ≠ r.old ∧ word ≠ r.new := by
  constructor
  · rintro rfl
    rw [r.old_isName] at hw
    cases hw
  · rintro rfl
    rw [r.new_isName] at hw
    cases hw

theorem spell_false (r : Renaming) (t : Token) : r.spell false t = t := by
  rw [spell, spelling_false]

theorem spell_of_ne {t : Token} (h : t.lexeme ≠ r.old) (mark : Bool) : r.spell mark t = t := by
  rw [spell, spelling_of_ne h]

theorem spell_kept {t : Token} (h : mark = true → (t.lexeme == r.old) = false) :
    r.spell mark t = t := by
  cases mark with
  | false => exact spell_false r t
  | true => exact spell_of_ne (by simpa using h rfl) true

theorem names_spell {t : Token} (h : t.Names Token.Spelled) (mark : Bool) :
    (r.spell mark t).Names Token.Spelled := by
  refine ⟨fun hk => ?_, h.kind⟩
  show Kind.ofWord (r.spelling mark t.lexeme) = t.kind
  unfold spelling
  split
  · rw [r.new_isName, h.kind]
  · exact h.good (.inl h.kind)

theorem selfInherited_spell {name : Token} {c : Superclass Unit} (hn : name.lexeme ≠ r.new)
    (h : Surroundings.selfInherited name c = []) (mark : Bool) :
    Surroundings.selfInherited name ⟨r.spell mark c.name, ()⟩ = [] := by
  refine if_neg fun he => ?_
  have he : r.spelling mark c.name.lexeme = name.lexeme := he
  unfold spelling at he
  split at he
  · exact hn he.symm
  · simp [Surroundings.selfInherited, he] at h

theorem not_isNamed_of_marks {ρ : Type} {parameters : List Token} {body : List (Stmt ρ)}
    (h : r.marks parameters body = true) : body.any (Stmt.isNamed r.old) = false := by
  simp only [marks, Bool.and_eq_true, Bool.not_eq_true'] at h
  exact h.2

/-- The same scope, with the old name spelled as the mark says. -/
structure Respells (r : Renaming) (mark : Bool) (b c : Bindings Bool) : Prop where
  same : ∀ x, x ≠ r.new → c.find? (r.spelling mark x) = b.find? x
  other : c.find? (r.spelling (!mark) r.old) = none

section
variable {b c : Bindings Bool}

theorem Respells.absent (h : r.Respells mark b c) (hx : x ≠ r.new) (hb : b.find? x = none)
    (mark' : Bool) : c.find? (r.spelling mark' x) = none := by
  by_cases hm : mark' = mark
  · rw [hm, h.same x hx, hb]
  · obtain rfl : mark' = !mark := by cases mark <;> cases mark' <;> simp_all
    by_cases ho : x = r.old
    · rw [ho]
      exact h.other
    · rw [spelling_of_ne ho, ← spelling_of_ne ho mark, h.same x hx, hb]

theorem Respells.put (h : r.Respells mark b c) (hx : x ≠ r.new) (ready : Bool) :
    r.Respells mark (b.put x ready) (c.put (r.spelling mark x) ready) where
  same y hy := by
    rw [Bindings.find?_put, Bindings.find?_put, h.same y hy]
    by_cases he : x = y
    · rw [he, if_pos rfl, if_pos rfl]
    · rw [if_neg he, if_neg fun hs => he (eq_of_spelling_eq (fun _ => hx) (fun _ => hy) hs)]
  other := by
    rw [Bindings.find?_put, if_neg (spelling_ne hx mark), h.other]

theorem respells_nil (r : Renaming) (mark : Bool) : r.Respells mark [] [] :=
  ⟨fun _ _ => rfl, rfl⟩

theorem respells_singleton (hx : x ≠ r.new) (ready : Bool) :
    r.Respells false [(x, ready)] [(x, ready)] := by
  have h := (respells_nil r false).put hx ready
  rwa [spelling_false] at h

end

/-- Scopes and their marks. -/
inductive Follow (r : Renaming) : List Bool → List (Bindings Bool) → List (Bindings Bool) → Prop
  | nil : Follow r [] [] []
  | cons {mark : Bool} {b c : Bindings Bool} {marks : List Bool} {bs cs : List (Bindings Bool)}
    (innermost : r.Respells mark b c) (outer : Follow r marks bs cs) :
    Follow r (mark :: marks) (b :: bs) (c :: cs)

theorem Follow.findIdx?_eq {marks : List Bool} {bs cs : List (Bindings Bool)}
    (h : r.Follow marks bs cs) (hx : x ≠ r.new) :
    let target := bs.findIdx? fun scope => (scope.find? x).isSome
    cs.findIdx? (fun scope => (scope.find? (r.spelling (markOf marks target) x)).isSome) =
      target := by
  induction h with
  | nil => rfl
  | @cons mark b c marks bs cs hb _ ih =>
    dsimp only at ih ⊢
    rw [List.findIdx?_cons, List.findIdx?_cons]
    cases hv : b.find? x with
    | some v =>
      have hc : c.find? (r.spelling mark x) = some v := (hb.same x hx).trans hv
      simp only [Option.isSome_some, if_true, markOf, List.getD_cons_zero, hc]
    | none =>
      simp only [Option.isSome_none, Bool.false_eq_true, if_false, hb.absent hx hv]
      generalize htarget : bs.findIdx? (fun scope => (scope.find? x).isSome) = target at ih ⊢
      have hmark : markOf (mark :: marks) (target.map (· + 1)) = markOf marks target := by
        cases target <;> rfl
      rw [hmark, ih]

/-- What is known at a place, before and after the renaming. -/
structure Surrounds (r : Renaming) (marks : List Bool) (s s' : Surroundings) : Prop where
  scopes : r.Follow marks s.scopes s'.scopes
  pending : s'.pending = s.pending
  activation : s'.activation = s.activation
  context : s'.context = s.context

namespace Surrounds
variable {marks : List Bool} {s s' : Surroundings} {name : Token}

theorem hops_eq (h : r.Surrounds marks s s') (hn : name.lexeme ≠ r.new) :
    s'.hops (r.spell (markOf marks (s.hops name.lexeme)) name).lexeme = s.hops name.lexeme :=
  h.scopes.findIdx?_eq hn

theorem hops_keyword (h : r.Surrounds marks s s') {w : Keyword}
    (hw : Kind.ofWord name.lexeme = .keyword w) : s'.hops name.lexeme = s.hops name.lexeme := by
  obtain ⟨ho, hn⟩ := ne_of_keyword (r := r) hw
  have he := h.hops_eq hn
  rwa [spell_of_ne ho] at he

theorem misread_eq (h : r.Surrounds marks s s') (hn : name.lexeme ≠ r.new)
    (hm : s.misread name = []) :
    s'.misread (r.spell (markOf marks (s.hops name.lexeme)) name) = [] := by
  obtain ⟨hscopes, hpending, -, -⟩ := h
  obtain ⟨scopes, pending, activation, context⟩ := s
  obtain ⟨scopes', pending', activation', context'⟩ := s'
  dsimp only at hscopes hpending
  cases hscopes with
  | nil =>
    subst hpending
    rw [show markOf [] _ = false by cases Surroundings.hops _ _ <;> rfl, spell_false]
    exact hm
  | @cons mark b c marks bs cs hb _ =>
    refine if_neg fun hc => ?_
    have hc : c.find? (r.spelling _ name.lexeme) = some false := hc
    cases hv : b.find? name.lexeme with
    | none =>
      rw [hb.absent hn hv] at hc
      cases hc
    | some ready =>
      have hmark : markOf (mark :: marks)
          (Surroundings.hops ⟨b :: bs, pending, activation, context⟩ name.lexeme) = mark := by
        rw [Surroundings.hops, List.findIdx?_cons, hv]
        rfl
      rw [hmark, hb.same _ hn] at hc
      simp [Surroundings.misread, hc] at hm

theorem redeclared_eq (h : r.Surrounds marks s s') (hn : name.lexeme ≠ r.new)
    (hd : s.redeclared name = []) : s'.redeclared (r.spell (marks.headD false) name) = [] := by
  obtain ⟨scopes, pending, activation, context⟩ := s
  obtain ⟨scopes', pending', activation', context'⟩ := s'
  have hscopes := h.scopes
  dsimp only at hscopes
  cases hscopes with
  | nil => rfl
  | @cons mark b c marks bs cs hb _ =>
    have hv : (c.find? (r.spelling mark name.lexeme)).isSome = (b.find? name.lexeme).isSome := by
      rw [hb.same _ hn]
    refine if_neg fun hc => ?_
    have hc : (c.find? (r.spelling mark name.lexeme)).isSome = true := hc
    rw [hv] at hc
    simp [Surroundings.redeclared, hc] at hd

theorem bind (h : r.Surrounds marks s s') (hn : name.lexeme ≠ r.new) (ready : Bool) :
    r.Surrounds marks (s.bind name.lexeme ready)
      (s'.bind (r.spell (marks.headD false) name).lexeme ready) := by
  obtain ⟨scopes, pending, activation, context⟩ := s
  obtain ⟨scopes', pending', activation', context'⟩ := s'
  have hscopes := h.scopes
  dsimp only at hscopes
  cases hscopes with
  | nil => exact h
  | cons hb hbs => exact ⟨.cons (hb.put hn ready) hbs, h.pending, h.activation, h.context⟩

theorem initializing (h : r.Surrounds marks s s') (name : Token) :
    r.Surrounds marks (s.initializing name)
      (s'.initializing (r.spell (marks.headD false) name)) := by
  obtain ⟨scopes, pending, activation, context⟩ := s
  obtain ⟨scopes', pending', activation', context'⟩ := s'
  have hscopes := h.scopes
  dsimp only at hscopes
  cases hscopes with
  | nil => exact ⟨.nil, congrArg some (spelling_false r _), h.activation, h.context⟩
  | cons hb hbs => exact h

theorem push (h : r.Surrounds marks s s') {mark : Bool} {b c : Bindings Bool}
    (hb : r.Respells mark b c) : r.Surrounds (mark :: marks) (s.push b) (s'.push c) :=
  ⟨.cons hb h.scopes, h.pending, h.activation, h.context⟩

theorem inActivation (h : r.Surrounds marks s s') (activation : Activation) :
    r.Surrounds marks { s with activation } { s' with activation } :=
  ⟨h.scopes, h.pending, rfl, h.context⟩

theorem withParameters (h : r.Surrounds marks s s') {parameters : List Token}
    (hp : ∀ p ∈ parameters, p.lexeme ≠ r.new) :
    r.Surrounds marks (s.withParameters parameters)
      (s'.withParameters (parameters.map (r.spell (marks.headD false)))) := by
  induction parameters generalizing s s' with
  | nil => exact h
  | cons p ps ih =>
    exact ih (h.bind (hp p List.mem_cons_self) true) fun q hq => hp q (List.mem_cons_of_mem p hq)

theorem repeatedParameters (h : r.Surrounds marks s s') {parameters : List Token}
    (hp : ∀ p ∈ parameters, p.lexeme ≠ r.new) (hd : s.repeatedParameters parameters = []) :
    s'.repeatedParameters (parameters.map (r.spell (marks.headD false))) = [] := by
  induction parameters generalizing s s' with
  | nil => rfl
  | cons p ps ih =>
    obtain ⟨hd, hds⟩ := List.append_eq_nil_iff.1 hd
    have hn := hp p List.mem_cons_self
    refine List.append_eq_nil_iff.2 ⟨h.redeclared_eq hn hd, ?_⟩
    exact ih (h.bind hn true) (fun q hq => hp q (List.mem_cons_of_mem p hq)) hds

theorem entering (h : r.Surrounds marks s s') (mark : Bool) (activation : Activation)
    {parameters : List Token} (hp : ∀ p ∈ parameters, p.lexeme ≠ r.new) :
    r.Surrounds (mark :: marks) (s.entering activation parameters)
      (s'.entering activation (parameters.map (r.spell mark))) :=
  ((h.inActivation activation).push (respells_nil r mark)).withParameters hp

theorem ofMethods (h : r.Surrounds marks s s') (isSubclass : Bool) :
    r.Surrounds (Stmt.methodMarks isSubclass marks) (s.ofMethods isSubclass)
      (s'.ofMethods isSubclass) := by
  have hthis : r.Respells false [("this", true)] [("this", true)] :=
    respells_singleton (ne_of_keyword (w := .this) rfl).2 true
  have hsuper : r.Respells false [("super", true)] [("super", true)] :=
    respells_singleton (ne_of_keyword (w := .super) rfl).2 true
  have hcontext (context : ClassContext) :
      r.Surrounds marks { s with context } { s' with context } :=
    ⟨h.scopes, h.pending, h.activation, rfl⟩
  cases isSubclass with
  | false => exact (hcontext .class_).push hthis
  | true => exact ((hcontext .subclass).push hsuper).push hthis

end Surrounds
end Renaming

end Lox

import Lox.Proofs.Placement
import Lox.Syntax.Nodes

/-! Portions of a program. Resolving a statement leaves everything but the innermost scope as it
was, and there it only declares. So at the top level nothing is left behind, and a program that is
resolved in two portions is resolved as a whole. -/

namespace Lox

/-- What holds of the places before and behind a statement. -/
structure Surroundings.Resumes (s t : Surroundings) : Prop where
  depth : t.scopes.length = s.scopes.length
  outer : t.scopes.tail = s.scopes.tail
  activation : t.activation = s.activation
  context : t.context = s.context
  pending : t.pending = s.pending
  /-- No name is lost, and each is as it was or ready. -/
  inner : ∀ scope ∈ s.scopes.head?, ∃ scope' ∈ t.scopes.head?,
    (∃ added, scope'.names = scope.names ++ added) ∧
      ∀ name, scope'.find? name = scope.find? name ∨ scope'.find? name = some true

namespace Surroundings.Resumes
variable {s t u : Surroundings}

theorem refl (s : Surroundings) : s.Resumes s where
  depth := rfl
  outer := rfl
  activation := rfl
  context := rfl
  pending := rfl
  inner scope h := ⟨scope, h, ⟨[], (List.append_nil _).symm⟩, fun _ => .inl rfl⟩

theorem trans (h : s.Resumes t) (h' : t.Resumes u) : s.Resumes u where
  depth := h'.depth.trans h.depth
  outer := h'.outer.trans h.outer
  activation := h'.activation.trans h.activation
  context := h'.context.trans h.context
  pending := h'.pending.trans h.pending
  inner scope hscope := by
    obtain ⟨scope₁, hscope₁, ⟨added₁, hnames₁⟩, hfind₁⟩ := h.inner scope hscope
    obtain ⟨scope₂, hscope₂, ⟨added₂, hnames₂⟩, hfind₂⟩ := h'.inner scope₁ hscope₁
    refine ⟨scope₂, hscope₂, ⟨added₁ ++ added₂, ?_⟩, fun name => ?_⟩
    · rw [hnames₂, hnames₁, List.append_assoc]
    · rcases hfind₂ name with hsame | hready
      · rw [hsame]
        exact hfind₁ name
      · exact .inr hready

theorem bind (s : Surroundings) (name : String) : s.Resumes (s.bind name true) := by
  obtain ⟨scopes, pending, activation, context⟩ := s
  cases scopes with
  | nil => exact .refl _
  | cons scope scopes =>
    refine ⟨rfl, rfl, rfl, rfl, rfl, ?_⟩
    rintro _ ⟨⟩
    refine ⟨scope.put name true, rfl, ?_, fun x => ?_⟩
    · rw [Bindings.names_put]
      split
      · exact ⟨[], (List.append_nil _).symm⟩
      · exact ⟨[name], rfl⟩
    · rw [Bindings.find?_put]
      split
      · exact .inr rfl
      · exact .inl rfl

end Surroundings.Resumes

namespace Stmt

theorem resumes_after (s : Surroundings) (st : RawStmt) : s.Resumes (after s st) := by
  fun_induction after s st with
  | case1 => exact .bind ..
  | case2 => exact .bind ..
  | case3 => exact .bind ..
  | case4 _ _ _ _ ih => exact ih
  | case5 _ _ _ _ _ ih₁ ih₂ => exact ih₁.trans ih₂
  | case6 _ _ _ _ ih => exact ih
  | _ => exact .refl _

end Stmt

/-! ### Tables of resolved names -/

namespace Expr

mutual

theorem length_nodes_bound (s : Surroundings) (e : RawExpr) :
    (e.bound s).nodes.length = e.nodes.length := by
  cases e with
  | grouping line inner => simp [bound, nodes, length_nodes_bound s inner]
  | unary operator right => simp [bound, nodes, length_nodes_bound s right]
  | binary left operator right | logical left operator right =>
    simp [bound, nodes, length_nodes_bound s left, length_nodes_bound s right]
  | assign line name _ value => simp [bound, nodes, length_nodes_bound s value]
  | call callee paren arguments =>
    simp [bound, nodes, length_nodes_bound s callee, length_nodesList_boundList s arguments]
  | get object name => simp [bound, nodes, length_nodes_bound s object]
  | set line object name value =>
    simp [bound, nodes, length_nodes_bound s object, length_nodes_bound s value]
  | _ => rfl

theorem length_nodesList_boundList (s : Surroundings) (es : List RawExpr) :
    (nodesList (boundList s es)).length = (nodesList es).length := by
  cases es with
  | nil => rfl
  | cons e es =>
    simp [boundList, nodesList, length_nodes_bound s e, length_nodesList_boundList s es]

end

theorem length_nodes?_bound (s : Surroundings) (e : Option RawExpr) :
    (nodes? (e.map (bound s))).length = (nodes? e).length := by
  cases e with
  | none => rfl
  | some e => exact length_nodes_bound s e

end Expr

namespace Stmt

mutual

/-- Resolving names leaves each node in its place. -/
theorem length_nodes_bound (s : Surroundings) (st : RawStmt) :
    (st.bound s).nodes.length = st.nodes.length := by
  cases st with
  | expression line value | print line value => simp [bound, nodes, Expr.length_nodes_bound]
  | var name initializer => simp [bound, nodes, Expr.length_nodes?_bound]
  | block line body => simp [bound, nodes, length_nodesList_boundList _ body]
  | ifThen line condition thenBranch =>
    simp [bound, nodes, Expr.length_nodes_bound, length_nodes_bound s thenBranch]
  | ifElse line condition thenBranch elseBranch =>
    simp [bound, nodes, Expr.length_nodes_bound, length_nodes_bound s thenBranch,
      length_nodes_bound _ elseBranch]
  | while_ line condition body =>
    simp [bound, nodes, Expr.length_nodes_bound, length_nodes_bound s body]
  | function f =>
    obtain ⟨name, parameters, body⟩ := f
    exact length_functionNodes_functionBound _ .function (.mk name parameters body)
  | return_ keyword value => simp [bound, nodes, Expr.length_nodes?_bound]
  | class_ line name superclass methods =>
    have habove : (Expr.nodes? ((superclass.map (Superclass.bound (s.bind name.lexeme true))).map
        Superclass.expr)).length = (Expr.nodes? (superclass.map Superclass.expr)).length := by
      cases superclass <;> rfl
    simp only [bound, nodes, List.length_append, List.length_cons, habove,
      length_functionNodesList_methodsBound _ methods]

theorem length_nodesList_boundList (s : Surroundings) (ss : List RawStmt) :
    (nodesList (boundList s ss)).length = (nodesList ss).length := by
  cases ss with
  | nil => rfl
  | cons st ss =>
    simp [boundList, nodesList, length_nodes_bound s st, length_nodesList_boundList _ ss]

theorem length_functionNodes_functionBound (s : Surroundings) (activation : Activation)
    (f : RawFunction) :
    (functionNodes (functionBound s activation f)).length = (functionNodes f).length := by
  obtain ⟨name, parameters, body⟩ := f
  simp [functionBound, functionNodes, length_nodesList_boundList _ body]

theorem length_functionNodesList_methodsBound (s : Surroundings) (fs : List RawFunction) :
    (functionNodesList (methodsBound s fs)).length = (functionNodesList fs).length := by
  cases fs with
  | nil => rfl
  | cons f fs =>
    simp [methodsBound, functionNodesList, length_functionNodes_functionBound s _ f,
      length_functionNodesList_methodsBound s fs]

end

theorem nodesList_append {ρ : Type} (ss ts : List (Stmt ρ)) :
    nodesList (ss ++ ts) = nodesList ss ++ nodesList ts := by
  induction ss with
  | nil => rfl
  | cons st ss ih => rw [List.cons_append, nodesList, nodesList, ih, List.append_assoc]

/-- What a node has in the table of its program, if it uses a local name: its number, and how many
scopes to step out. -/
def keyed? (node : Node Hops) (number : Nat) : Option (Nat × Nat) :=
  node.reference?.map fun use => (number, use.hops)

/-- The table of a resolved program. Its nodes are numbered in the order of reading. -/
def table (program : List BoundStmt) : List (Nat × Nat) :=
  (nodesList program).zipIdx.filterMap fun p => keyed? p.1 p.2

theorem eq_of_keyed? {node : Node Hops} {number : Nat} {p : Nat × Nat}
    (h : keyed? node number = some p) : p.1 = number := by
  obtain ⟨use, -, rfl⟩ := Option.map_eq_some_iff.1 h
  rfl

theorem keyed?_add (node : Node Hops) (n number : Nat) :
    keyed? node (n + number) = (keyed? node number).map fun p => (n + p.1, p.2) := by
  unfold keyed?
  rw [Option.map_map]
  rfl

theorem table_append (ss ts : List BoundStmt) :
    table (ss ++ ts) =
      table ss ++ (table ts).map fun p => ((nodesList ss).length + p.1, p.2) := by
  unfold table
  rw [nodesList_append, List.zipIdx_append, List.filterMap_append, Nat.zero_add,
    List.zipIdx_eq_map_add (i := (nodesList ss).length), List.filterMap_map, List.map_filterMap]
  simp only [Function.comp_def, keyed?_add]

theorem table_lt {program : List BoundStmt} {p : Nat × Nat} (h : p ∈ table program) :
    p.1 < (nodesList program).length := by
  obtain ⟨q, hmem, hkeyed⟩ := List.mem_filterMap.1 h
  rw [eq_of_keyed? hkeyed]
  simpa using List.snd_lt_of_mem_zipIdx hmem

theorem nodup_table (program : List BoundStmt) : ((table program).map Prod.fst).Nodup := by
  have hnumbers : (nodesList program).zipIdx.Pairwise fun p q => p.2 ≠ q.2 := by
    rw [← List.pairwise_map (f := Prod.snd), List.zipIdx_map_snd]
    exact List.nodup_range'
  rw [List.Nodup, List.pairwise_map]
  refine List.Pairwise.filterMap _ ?_ hnumbers
  intro p q hne a ha b hb
  rwa [eq_of_keyed? ha, eq_of_keyed? hb]

end Stmt

/-- Whatever is wrong with it, a statement is resolved to what stands behind it and to messages
behind those before. -/
theorem Resolver.stmt_resumes (st : RawStmt) (s : Scoping) :
    s.toSurroundings.Resumes (stmt st s).2.toSurroundings ∧
      ∃ found, (stmt st s).2.errors = found ++ s.errors := by
  rw [stmt_run]
  exact ⟨Stmt.resumes_after s.toSurroundings st, _, rfl⟩

/-- Resolving a statement, wherever it stands and whatever is wrong with it, leaves the scopes as
many as they were and all but the innermost untouched, and so it leaves the kind of function, the
kind of class and the global being initialized; in the innermost scope, names are added or become
ready. So two portions of a program, resolved one by one from the top level, give together the
resolved program, its messages in order, and its table, in which no node has two entries. -/
theorem Resolution.ofProgram_append :
    (∀ (st : RawStmt) (s : Scoping),
      s.toSurroundings.Resumes (Resolver.stmt st s).2.toSurroundings ∧
        ∃ found, (Resolver.stmt st s).2.errors = found ++ s.errors) ∧
    ∀ first second : List RawStmt,
      let whole := ofProgram (first ++ second)
      let one := ofProgram first
      let two := ofProgram second
      let count := (Stmt.nodesList first).length
      whole.program = one.program ++ two.program ∧
      whole.errors = one.errors ++ two.errors ∧
      Stmt.table whole.program =
        Stmt.table one.program ++ (Stmt.table two.program).map (fun p => (count + p.1, p.2)) ∧
      (∀ p ∈ Stmt.table one.program, p.1 < count) ∧
      ((Stmt.table whole.program).map Prod.fst).Nodup := by
  refine ⟨Resolver.stmt_resumes, fun first second => ?_⟩
  intro whole one two count
  have hcount : (Stmt.nodesList one.program).length = count := by
    rw [show one = _ from ofProgram_eq first]
    exact Stmt.length_nodesList_boundList .topLevel first
  have hprogram : whole.program = one.program ++ two.program := by
    simp only [whole, one, two, ofProgram_eq, Stmt.boundList_append (s := .topLevel) rfl]
  have herrors : whole.errors = one.errors ++ two.errors := by
    simp only [whole, one, two, ofProgram_eq, Stmt.problemsList_append (s := .topLevel) rfl]
  refine ⟨hprogram, herrors, ?_, fun p hp => ?_, Stmt.nodup_table _⟩
  · rw [hprogram, Stmt.table_append, hcount]
  · rw [← hcount]
    exact Stmt.table_lt hp

end Lox

import Lox.Proofs.Agreement
import Lox.Proofs.Parallel
import Lox.Proofs.Renaming

/-! Aliases. While a program and its renaming run in parallel, their environments bind the same
names to values that are alike, except that in some environments the old name is spelled anew. The
marks of the scopes around a place tell in which ones. -/

namespace Lox

namespace Renaming
variable {r : Renaming} {mark : Bool} {P Q : Value → Value → Prop} {b c : Bindings Value}

/-- Related values under each name that is looked up. Where the old name is spelled anew, the new
one is no name of the program. -/
def Aliases (r : Renaming) (mark : Bool) (P : Value → Value → Prop) (b c : Bindings Value) : Prop :=
  ∀ x, (mark = true → x ≠ r.new) → Option.Rel P (b.find? x) (c.find? (r.spelling mark x))

theorem Aliases.mono (h : r.Aliases mark P b c) (hPQ : ∀ v w, P v w → Q v w) :
    r.Aliases mark Q b c := by
  intro x hx
  have hv := h x hx
  generalize b.find? x = v?, c.find? (r.spelling mark x) = w? at hv ⊢
  cases hv with
  | none => exact .none
  | some hv => exact .some (hPQ _ _ hv)

theorem aliases_nil (r : Renaming) (mark : Bool) (P : Value → Value → Prop) :
    r.Aliases mark P [] [] := fun _ _ => .none

theorem Aliases.put (h : r.Aliases mark P b c) {x : String} (hx : mark = true → x ≠ r.new)
    {v w : Value} (hv : P v w) : r.Aliases mark P (b.put x v) (c.put (r.spelling mark x) w) := by
  intro y hy
  rw [Bindings.find?_put, Bindings.find?_put]
  by_cases he : x = y
  · rw [he, if_pos rfl, if_pos rfl]
    exact .some hv
  · rw [if_neg he, if_neg fun hs => he (eq_of_spelling_eq hx hy hs)]
    exact h y hy

theorem aliases_singleton (r : Renaming) (x : String) {v w : Value} (hv : P v w) :
    r.Aliases false P [(x, v)] [(x, w)] := by
  have h := (aliases_nil r false P).put (fun h => Bool.noConfusion h) (x := x) hv
  rwa [spelling_false] at h

theorem aliases_ofPairs {names : List String} (hn : ∀ x ∈ names, mark = true → x ≠ r.new)
    {vs ws : List Value} (hvs : List.Forall₂ P vs ws) :
    r.Aliases mark P (.ofPairs (names.zip vs))
      (.ofPairs ((names.map (r.spelling mark)).zip ws)) := by
  have hnames : List.Forall₂ (fun x y => (mark = true → x ≠ r.new) ∧ y = r.spelling mark x) names
      (names.map (r.spelling mark)) :=
    List.forall₂_map_right_iff.2 (List.forall₂_same.2 fun x hx => ⟨hn x hx, rfl⟩)
  refine Bindings.ofPairs_related (aliases_nil r mark P) (fun b c x y v w hbc hxy hv => ?_)
    hnames hvs
  obtain ⟨hx, rfl⟩ := hxy
  exact hbc.put hx hv

end Renaming

/-- Environments, and whether the old name is spelled anew in each. -/
structure Marking where
  envs : Environments
  mark : Nat → Bool

namespace Marking
variable {M N O : Marking} {marks : List Bool} {e d a : Nat}

structure Grows (M N : Marking) : Prop where
  envs : M.envs.Grows N.envs
  mark : ∀ e < M.envs.frames.size, N.mark e = M.mark e

theorem Grows.refl (M : Marking) : M.Grows M := ⟨.refl _, fun _ _ => rfl⟩

theorem Grows.trans (h : M.Grows N) (h' : N.Grows O) : M.Grows O where
  envs := h.envs.trans h'.envs
  mark e he := (h'.mark e (Nat.lt_of_lt_of_le he h.envs.size)).trans (h.mark e he)

/-- From the environment outwards lie the environments of scopes with these marks, and then the
globals. -/
def Lies (M : Marking) : List Bool → Nat → Prop
  | [], e => e = Machine.globals
  | mark :: marks, e => e < M.envs.frames.size ∧ M.mark e = mark ∧
    ∃ p < e, M.envs.link? e = some p ∧ M.Lies marks p

theorem Lies.mono (h : M.Lies marks e) (hg : M.Grows N) : N.Lies marks e := by
  induction marks generalizing e with
  | nil => exact h
  | cons mark marks ih =>
    obtain ⟨he, hm, p, hp, hl, h⟩ := h
    exact ⟨Nat.lt_of_lt_of_le he hg.envs.size, (hg.mark e he).trans hm, p, hp,
      hg.envs.link e p hl, ih h⟩

/-- The globals exist, and keep their names. -/
structure Rooted (M : Marking) : Prop where
  exists_ : Machine.globals < M.envs.frames.size
  mark : M.mark Machine.globals = false

theorem Lies.exists_ (h : M.Lies marks e) (hM : M.Rooted) : e < M.envs.frames.size := by
  cases marks with
  | nil => exact h ▸ hM.exists_
  | cons mark marks => exact h.1

theorem Lies.mark_eq (h : M.Lies marks e) (hM : M.Rooted) : M.mark e = marks.headD false := by
  cases marks with
  | nil => exact h ▸ hM.mark
  | cons mark marks => exact h.2.1

theorem Lies.ancestor (h : M.Lies marks e) (hM : M.Rooted)
    (ha : M.envs.ancestor? e d = some a) :
    a < M.envs.frames.size ∧ M.mark a = markOf marks (some d) := by
  induction d generalizing e marks with
  | zero =>
    cases ha
    refine ⟨h.exists_ hM, (h.mark_eq hM).trans ?_⟩
    cases marks <;> rfl
  | succ d ih =>
    cases marks with
    | nil =>
      obtain rfl : e = 0 := h
      cases hq : M.envs.enclosing? 0 with
      | none => simp [Environments.ancestor?, hq] at ha
      | some q => exact absurd q.2 (Nat.not_lt_zero _)
    | cons mark marks =>
      obtain ⟨-, -, p, hp, hl, h⟩ := h
      rw [Environments.ancestor?_of_link hl hp] at ha
      exact ih h ha

end Marking

namespace Renaming
variable {r : Renaming} {M N : Marking} {f g : Closure} {inner : List Bool} {v w : Value}

/-- A token of a program that can be renamed. -/
def Admits (r : Renaming) (t : Token) : Prop := t.Spelled ∧ t.lexeme ≠ r.new

/-- The same function, renamed as the marks around it say. The scopes that it has yet to be put
into come first. -/
structure SameCode (r : Renaming) (M : Marking) (inner : List Bool) (f g : Closure) : Prop where
  id : f.id = g.id
  isInitializer : f.isInitializer = g.isInitializer
  environment : f.environment = g.environment
  declaration : ∃ marks, M.Lies marks f.environment ∧
    Stmt.FunctionRegular r.Admits f.declaration ∧
      g.declaration = Stmt.renamedFunction r (inner ++ marks) f.declaration

theorem SameCode.mono (h : r.SameCode M inner f g) (hg : M.Grows N) : r.SameCode N inner f g := by
  obtain ⟨marks, hl, hf, hd⟩ := h.declaration
  exact ⟨h.id, h.isInitializer, h.environment, marks, hl.mono hg, hf, hd⟩

/-- Functions keep their names. -/
theorem SameCode.head_eq (h : r.SameCode M inner f g) : f.name = g.name ∧ f.arity = g.arity := by
  obtain ⟨marks, -, -, hd⟩ := h.declaration
  unfold Closure.name Closure.arity
  rw [hd]
  cases f.declaration
  exact ⟨rfl, (List.length_map _).symm⟩

def Alike (r : Renaming) (M : Marking) (v w : Value) : Prop :=
  v.Rel (r.SameCode M []) (r.SameCode M [false]) w

theorem Alike.mono (h : r.Alike M v w) (hg : M.Grows N) : r.Alike N v w :=
  Value.Rel.mono h (fun _ _ h => h.mono hg) fun _ _ h => h.mono hg

/-- Two machines that bind the same but for spelling. -/
structure Mirrors (r : Renaming) (mark : Nat → Bool) (m m' : Machine) : Prop where
  rooted : Marking.Rooted ⟨m.environments, mark⟩
  size : m'.environments.frames.size = m.environments.frames.size
  link : ∀ e, m'.environments.link? e = m.environments.link? e
  bound : ∀ e, r.Aliases (mark e) (r.Alike ⟨m.environments, mark⟩) (m.environments.bindings e)
    (m'.environments.bindings e)
  objects_size : m'.objects.size = m.objects.size
  objects : ∀ ref : Nat, Option.Rel (r.Aliases false (r.Alike ⟨m.environments, mark⟩))
    m.objects[ref]? m'.objects[ref]?
  created : m'.created = m.created
  current : m'.current = m.current
  callDepth : m'.callDepth = m.callDepth
  clock : m'.clock = m.clock
  events : m'.events = m.events

theorem Mirrors.withEnvironments {mark mark' : Nat → Bool} {m m' : Machine}
    (h : r.Mirrors mark m m') {envs envs' : Environments}
    (hg : Marking.Grows ⟨m.environments, mark⟩ ⟨envs, mark'⟩)
    (hsize : envs'.frames.size = envs.frames.size) (hlink : ∀ e, envs'.link? e = envs.link? e)
    (hbound : ∀ e, r.Aliases (mark' e) (r.Alike ⟨envs, mark'⟩) (envs.bindings e)
      (envs'.bindings e)) :
    r.Mirrors mark' { m with environments := envs } { m' with environments := envs' } :=
  { h with
    rooted := ⟨Nat.lt_of_lt_of_le h.rooted.exists_ hg.envs.size,
      (hg.mark _ h.rooted.exists_).trans h.rooted.mark⟩
    size := hsize
    link := hlink
    bound := hbound
    objects := fun ref => by
      have hobject := h.objects ref
      generalize m.objects[ref]? = b?, m'.objects[ref]? = c? at hobject ⊢
      cases hobject with
      | none => exact .none
      | some hb => exact .some (hb.mono fun _ _ hv => hv.mono hg) }

structure Mirror (r : Renaming) where
  mark : Nat → Bool
  left : Machine
  right : Machine
  mirrors : r.Mirrors mark left right

namespace Mirror

def marking (s : r.Mirror) : Marking := ⟨s.left.environments, s.mark⟩

structure Later (s t : r.Mirror) : Prop where
  marking : s.marking.Grows t.marking
  current : t.left.current = s.left.current

end Mirror

/-- The run of a program and that of its renaming. A fault may be put in other words. -/
def aliases (r : Renaming) : Parallel where
  State := r.Mirror
  left := Mirror.left
  right := Mirror.right
  Later := Mirror.Later
  later_refl _ := ⟨.refl _, rfl⟩
  later_trans h h' := ⟨h.marking.trans h'.marking, h'.current.trans h.current⟩
  Told := Unit
  Confirms _ _ := True
  confirms_later _ _ := trivial
  Fails f g := f = g ∨ f.isFault = true ∧ g.isFault = true
  fails_refl _ := .inl rfl
  Function s := r.SameCode s.marking []
  Method s := r.SameCode s.marking [false]
  function_later h hf := hf.mono h.marking
  method_later h hf := hf.mono h.marking
  id_eq := SameCode.id
  name_eq h := h.head_eq.1
  arity_eq h := h.head_eq.2
  methodArity_eq h := h.head_eq.2

namespace Mirror
open Eval
variable {s t : r.Mirror} {α β : Type} {marks : List Bool}

abbrev Runs (s : r.Mirror) (x : Unit → Eval α) (y : Eval β) (Q : r.Mirror → α → β → Prop) : Prop :=
  Parallel.Runs (P := r.aliases) s x y Q

abbrev Alike (s : r.Mirror) : Value → Value → Prop := r.Alike s.marking

/-- The mirror is at a place with these marks around it. -/
def Stands (s : r.Mirror) (marks : List Bool) : Prop := s.marking.Lies marks s.left.current

theorem Stands.later (h : s.Stands marks) (ht : s.Later t) : t.Stands marks := by
  unfold Stands
  rw [ht.current]
  exact h.mono ht.marking

/-- A step that stores something. -/
theorem runs_step {mark : Nat → Bool} {f : Machine → α × Machine} {g : Machine → β × Machine}
    {Q : r.Mirror → α → β → Prop} (h : r.Mirrors mark (f s.left).2 (g s.right).2)
    (hg : s.marking.Grows ⟨(f s.left).2.environments, mark⟩)
    (hc : (f s.left).2.current = s.left.current)
    (hQ : Q ⟨mark, _, _, h⟩ (f s.left).1 (g s.right).1) :
    s.Runs (fun _ => modifyGet f) (modifyGet g) Q :=
  ⟨⟨mark, _, _, h⟩, ⟨hg, hc⟩, .inl ⟨_, _, hQ, rfl, fun _ _ => rfl⟩⟩

theorem emit_runs (s : r.Mirror) (e : Event) :
    s.Runs (fun _ => emit e) (emit e) fun _ _ _ => True :=
  runs_step { s.mirrors with events := congrArg (e :: ·) s.mirrors.events } (.refl s.marking) rfl
    trivial

theorem readClock_runs (s : r.Mirror) : s.Runs (fun _ => readClock) readClock Alike :=
  runs_step { s.mirrors with clock := congrArg (· + Machine.tick) s.mirrors.clock }
    (.refl s.marking) rfl s.mirrors.clock.symm

theorem nextId_runs (s : r.Mirror) : s.Runs (fun _ => nextId) nextId fun _ id id' => id = id' :=
  runs_step { s.mirrors with created := congrArg (· + 1) s.mirrors.created } (.refl s.marking) rfl
    s.mirrors.created.symm

theorem newInstance_runs (s : r.Mirror) {c d : Class} (h : c.Rel (r.aliases.Method s) d) :
    s.Runs (fun _ => newInstance c) (newInstance d) Alike := by
  have hsize := s.mirrors.objects_size
  refine runs_step { s.mirrors with
    objects_size := by simp [hsize]
    objects := fun ref => ?_ } (.refl s.marking) rfl ⟨hsize.symm, h⟩
  rw [Array.getElem?_push, Array.getElem?_push, hsize]
  split
  · exact .some (aliases_nil r false _)
  · exact s.mirrors.objects ref

theorem getField?_runs (s : r.Mirror) (ref : Nat) (name : String) :
    s.Runs (fun _ => getField? ref name) (getField? ref name)
      fun t => Option.Rel (Alike t) := by
  refine Parallel.Runs.get (.pure ?_)
  show Option.Rel _ ((s.left.objects[ref]?).bind (·.find? name))
    ((s.right.objects[ref]?).bind (·.find? name))
  have h := s.mirrors.objects ref
  generalize s.left.objects[ref]? = b?, s.right.objects[ref]? = c? at h ⊢
  cases h with
  | none => exact .none
  | some h =>
    have hname := h name fun hm => Bool.noConfusion hm
    rwa [spelling_false] at hname

theorem setField_runs (s : r.Mirror) (ref : Nat) (name : String) {v w : Value}
    (h : Alike s v w) :
    s.Runs (fun _ => setField ref name v) (setField ref name w) fun _ _ _ => True := by
  refine runs_step { s.mirrors with
    objects_size := by simp [s.mirrors.objects_size]
    objects := fun ref' => ?_ } (.refl s.marking) rfl trivial
  have hobject := s.mirrors.objects ref'
  rw [Array.getElem?_modify, Array.getElem?_modify]
  generalize s.left.objects[ref']? = b?, s.right.objects[ref']? = c? at hobject ⊢
  split
  · cases hobject with
    | none => exact .none
    | some hb =>
      have hput := hb.put (fun hm => Bool.noConfusion hm) (x := name) h
      rw [spelling_false] at hput
      exact .some hput
  · exact hobject

/-- A new environment for a scope of this mark. -/
theorem newEnvironment_runs {mark : Bool} {p : Nat} (hp : s.marking.Lies marks p)
    {b c : Bindings Value} (hb : r.Aliases mark (Alike s) b c) :
    s.Runs (fun _ => newEnvironment p b) (newEnvironment p c) fun t e e' =>
      e = e' ∧ t.marking.Lies (mark :: marks) e := by
  have hM := s.mirrors
  let created : Nat := s.left.environments.frames.size
  let mark' : Nat → Bool := fun e => if e = created then mark else s.mark e
  have hnew : mark' created = mark := if_pos rfl
  have hg : s.marking.Grows ⟨(s.left.environments.create (some p) b).2, mark'⟩ :=
    ⟨Environments.grows_create _ _ _, fun e he => if_neg (Nat.ne_of_lt he)⟩
  refine runs_step (hM.withEnvironments hg ?_ (fun e => ?_) fun e => ?_) hg rfl
    ⟨hM.size.symm, ?_, hnew, p, hp.exists_ hM.rooted, ?_, hp.mono hg⟩
  · rw [Environments.size_create, Environments.size_create, hM.size]
  · rw [Environments.link?_create, Environments.link?_create, hM.size, hM.link]
  · rw [Environments.bindings_create, Environments.bindings_create, hM.size]
    by_cases he : e = created
    · rw [if_pos he, if_pos he, he, hnew]
      exact hb.mono fun _ _ hv => hv.mono hg
    · rw [if_neg he, if_neg he, show mark' e = s.mark e from if_neg he]
      exact (hM.bound e).mono fun _ _ hv => hv.mono hg
  · show created < (s.left.environments.create _ _).2.frames.size
    rw [Environments.size_create]
    exact Nat.lt_succ_self created
  · show (s.left.environments.create _ _).2.link? created = _
    rw [Environments.link?_create]
    exact if_pos rfl

theorem defineIn_runs (e : Nat) {x : String} (hx : s.mark e = true → x ≠ r.new) {v w : Value}
    (h : Alike s v w) :
    s.Runs (fun _ => defineIn e x v) (defineIn e (r.spelling (s.mark e) x) w)
      fun t _ _ => e < s.left.environments.frames.size →
        (t.left.environments.find? e x).isSome := by
  have hM := s.mirrors
  have hg : s.marking.Grows ⟨s.left.environments.define e x v, s.mark⟩ :=
    ⟨Environments.grows_define _ _ _ _, fun _ _ => rfl⟩
  refine runs_step (hM.withEnvironments hg ?_ (fun e' => ?_) fun e' => ?_) hg rfl fun he => ?_
  · rw [Environments.size_define, Environments.size_define, hM.size]
  · rw [Environments.link?_define, Environments.link?_define, hM.link]
  · have hbound := (hM.bound e').mono fun _ _ hv => hv.mono hg
    rw [Environments.bindings_define, Environments.bindings_define, hM.size]
    split
    · next he =>
      obtain ⟨rfl, -⟩ := he
      exact hbound.put hx (h.mono hg)
    · exact hbound
  · show ((s.left.environments.define e x v).find? e x).isSome
    rw [Environments.find?_define he, if_pos ⟨rfl, rfl⟩]
    rfl

theorem define_runs (hs : s.Stands marks) {name : Token}
    (hn : marks.headD false = true → name.lexeme ≠ r.new) {v w : Value} (h : Alike s v w) :
    s.Runs (fun _ => define name.lexeme v) (define (r.spell (marks.headD false) name).lexeme w)
      fun t _ _ => (t.left.environments.find? t.left.current name.lexeme).isSome := by
  have hmark : s.mark s.left.current = marks.headD false := hs.mark_eq s.mirrors.rooted
  have hdefine := defineIn_runs s.left.current (hmark ▸ hn) h
  rw [hmark] at hdefine
  show s.Runs (fun _ => get >>= fun m => defineIn m.current name.lexeme v)
    (get >>= fun m => defineIn m.current (r.spelling (marks.headD false) name.lexeme) w) _
  refine Parallel.Runs.get (P := r.aliases) ?_
  show s.Runs (fun _ => defineIn s.left.current _ v) (defineIn s.right.current _ w) _
  rw [s.mirrors.current]
  refine hdefine.mono fun t _ _ ht hbound => ?_
  rw [ht.current]
  exact hbound (hs.exists_ s.mirrors.rooted)

theorem ancestor?_eq (s : r.Mirror) (e d : Nat) :
    s.right.environments.ancestor? e d = s.left.environments.ancestor? e d :=
  Environments.ancestor?_congr s.mirrors.link e d

/-- A value so many environments out, under the name spelled as the mark there says. -/
theorem getAt_alike {e : Nat} (he : s.marking.Lies marks e) (d : Nat) {x : String}
    (hx : x ≠ r.new) :
    (∃ v w, s.left.environments.getAt e d x = .ok v ∧
        s.right.environments.getAt e d (r.spelling (markOf marks (some d)) x) = .ok w ∧
          Alike s v w) ∨
      ∃ f g, s.left.environments.getAt e d x = .error f ∧
        s.right.environments.getAt e d (r.spelling (markOf marks (some d)) x) = .error g := by
  unfold Environments.getAt Environments.ancestor
  rw [ancestor?_eq]
  cases ha : s.left.environments.ancestor? e d with
  | none => exact .inr ⟨_, _, rfl, rfl⟩
  | some a =>
    have hmark : s.mark a = markOf marks (some d) := (he.ancestor s.mirrors.rooted ha).2
    have hv := s.mirrors.bound a x fun _ => hx
    rw [hmark] at hv
    dsimp only
    unfold Environments.find?
    generalize (s.left.environments.bindings a).find? x = v?,
      (s.right.environments.bindings a).find? (r.spelling (markOf marks (some d)) x) = w? at hv ⊢
    cases hv with
    | none => exact .inr ⟨_, _, rfl, rfl⟩
    | some hv => exact .inl ⟨_, _, rfl, rfl, hv⟩

theorem fault_runs (f g : Fault) {Q : r.Mirror → α → β → Prop} :
    s.Runs (fun _ => throw (.fault f)) (throw (.fault g)) Q :=
  ⟨s, r.aliases.later_refl s, .inr ⟨_, _, .inr ⟨rfl, rfl⟩, rfl, fun _ _ => rfl⟩⟩

theorem getAt_runs {e : Nat} (he : s.marking.Lies marks e) (d : Nat) {x : String}
    (hx : x ≠ r.new) :
    s.Runs (fun _ => ofFault (s.left.environments.getAt e d x))
      (ofFault (s.right.environments.getAt e d (r.spelling (markOf marks (some d)) x))) Alike := by
  rcases getAt_alike he d hx with ⟨v, w, hl, hr, hv⟩ | ⟨f, g, hl, hr⟩
  · rw [hl, hr]
    exact .pure hv
  · rw [hl, hr]
    exact fault_runs f g

/-- The names that classes bind are never spelled anew. -/
theorem keyword_runs (word : String) {k : Keyword} (hk : Kind.ofWord word = .keyword k) {e : Nat}
    (he : s.marking.Lies marks e) (d : Nat) {x : Value → Eval α} {y : Value → Eval β}
    {Q : r.Mirror → α → β → Prop}
    (h : ∀ v w, Alike s v w → s.Runs (fun _ => x v) (y w) Q) :
    s.Runs (fun _ => ofFault (s.left.environments.getAt e d word) >>= x)
      (ofFault (s.right.environments.getAt e d word) >>= y) Q := by
  obtain ⟨hold, hnew⟩ := ne_of_keyword (r := r) hk
  have hfound := getAt_alike he d hnew
  rw [spelling_of_ne hold] at hfound
  rcases hfound with ⟨v, w, hl, hr, hv⟩ | ⟨f, g, hl, hr⟩
  · rw [hl, hr]
    exact h v w hv
  · rw [hl, hr]
    exact fault_runs f g

theorem find?_globals (s : r.Mirror) (x : String) :
    Option.Rel (Alike s) (s.left.environments.find? 0 x) (s.right.environments.find? 0 x) := by
  have hmark : s.mark 0 = false := s.mirrors.rooted.mark
  have hv := s.mirrors.bound 0 x
  rw [hmark, spelling_false] at hv
  exact hv fun hm => Bool.noConfusion hm

theorem lookUp_runs (hs : s.Stands marks) {name : Token} (hn : name.lexeme ≠ r.new)
    (target : Hops) :
    s.Runs (fun _ => lookUp name target) (lookUp (r.spell (markOf marks target) name) target)
      Alike := by
  cases target with
  | some d =>
    refine Parallel.Runs.get (P := r.aliases) ?_
    show s.Runs (fun _ => ofFault (s.left.environments.getAt s.left.current d name.lexeme))
      (ofFault (s.right.environments.getAt s.right.current d _)) _
    rw [s.mirrors.current]
    exact getAt_runs hs d hn
  | none =>
    rw [show r.spell (markOf marks none) name = name from spell_false r name]
    have hv := find?_globals s name.lexeme
    rw [← Environments.get?_zero, ← Environments.get?_zero] at hv
    exact Parallel.lookUp_runs (P := r.aliases) hv

/-- An assignment by name, in an environment that spells the name as it is. -/
theorem assignFrom_runs {e : Nat} {name : Token} (hn : s.mark e = true → name.lexeme ≠ r.new)
    (hkept : r.spelling (s.mark e) name.lexeme = name.lexeme)
    (he : e = Machine.globals ∨ (s.left.environments.find? e name.lexeme).isSome) {v w : Value}
    (h : Alike s v w) :
    s.Runs (fun _ => assignFrom e name v) (assignFrom e name w) fun _ _ _ => True := by
  have hv := s.mirrors.bound e name.lexeme hn
  rw [hkept] at hv
  have hsome : (s.left.environments.find? e name.lexeme).isSome =
      (s.right.environments.find? e name.lexeme).isSome := by
    unfold Environments.find?
    generalize (s.left.environments.bindings e).find? name.lexeme = v?,
      (s.right.environments.bindings e).find? name.lexeme = w? at hv ⊢
    cases hv <;> rfl
  have howner : s.right.environments.owner? name.lexeme e =
        s.left.environments.owner? name.lexeme e ∧
      ∀ owner ∈ s.left.environments.owner? name.lexeme e, owner = e := by
    rcases he with rfl | he
    · unfold Machine.globals at hsome ⊢
      rw [Environments.owner?_zero, Environments.owner?_zero, hsome]
      refine ⟨rfl, fun owner ho => ?_⟩
      split at ho
      · exact (Option.some.inj ho).symm
      · cases ho
    · rw [Environments.owner?_self he, Environments.owner?_self (hsome ▸ he)]
      exact ⟨rfl, fun owner ho => (Option.some.inj ho).symm⟩
  refine Parallel.assignFrom_runs (P := r.aliases) howner.1 fun owner ho => ?_
  obtain rfl := howner.2 owner ho
  have hdefine := defineIn_runs owner hn h
  rw [hkept] at hdefine
  exact hdefine.mono fun _ _ _ _ _ => trivial

theorem assign_runs (hs : s.Stands marks) {name : Token} (hn : name.lexeme ≠ r.new)
    (target : Hops) {v w : Value} (h : Alike s v w) :
    s.Runs (fun _ => assign name target v) (assign (r.spell (markOf marks target) name) target w)
      fun _ _ _ => True := by
  cases target with
  | none =>
    rw [show r.spell (markOf marks none) name = name from spell_false r name]
    have hmark : s.mark Machine.globals = false := s.mirrors.rooted.mark
    exact assignFrom_runs (fun _ => hn) (by rw [hmark, spelling_false]) (.inl rfl) h
  | some d =>
    refine Parallel.Runs.get (P := r.aliases) ?_
    show s.Runs (fun _ => ofFault (s.left.environments.ancestor s.left.current d) >>= fun e =>
        defineIn e name.lexeme v)
      (ofFault (s.right.environments.ancestor s.right.current d) >>= fun e =>
        defineIn e (r.spelling (markOf marks (some d)) name.lexeme) w) _
    unfold Environments.ancestor
    rw [ancestor?_eq, s.mirrors.current]
    cases ha : s.left.environments.ancestor? s.left.current d with
    | none => exact .throw _
    | some a =>
      have hmark : s.mark a = markOf marks (some d) := (hs.ancestor s.mirrors.rooted ha).2
      have hdefine := defineIn_runs a (fun _ => hn) h
      rw [hmark] at hdefine
      exact hdefine.mono fun _ _ _ _ _ => trivial

/-- A method is bound in an environment of its own. -/
theorem bindMethod_runs (s : r.Mirror) {f g : Closure} {v w : Value}
    (hf : r.SameCode s.marking [false] f g) (hv : Alike s v w) :
    s.Runs (fun _ => bindMethod f v) (bindMethod g w) fun t => r.SameCode t.marking [] := by
  obtain ⟨marks, hl, hregular, hdeclaration⟩ := hf.declaration
  unfold bindMethod
  rw [← hf.environment]
  refine (newEnvironment_runs hl (aliases_singleton r "this" hv)).bind fun t e _ ht he => ?_
  obtain ⟨rfl, hlies⟩ := he
  refine (nextId_runs t).bind fun u id _ hu hid => .pure ?_
  exact ⟨hid, hf.isInitializer, rfl, false :: marks, hlies.mono hu.marking, hregular,
    hdeclaration⟩

/-- The same machines in another place. -/
def moved (s : r.Mirror) (current callDepth : Nat) : r.Mirror where
  mark := s.mark
  left := { s.left with current, callDepth }
  right := { s.right with current, callDepth }
  mirrors := { s.mirrors with current := rfl, callDepth := rfl }

theorem inEnvironment_runs (e : Nat) {x : Unit → Eval α} {y : Eval β}
    {Q : r.Mirror → α → β → Prop}
    (hQ : ∀ (t : r.Mirror) a b current callDepth, Q t a b → Q (t.moved current callDepth) a b)
    (h : (s.moved e s.left.callDepth).Runs x y Q) :
    s.Runs (fun told => inEnvironment e (x told)) (inEnvironment e y) Q := by
  have hright : (s.moved e s.left.callDepth).right = { s.right with current := e } := by
    show { s.right with current := e, callDepth := s.left.callDepth } = _
    rw [← s.mirrors.callDepth]
  simp only [inEnvironment_eq]
  refine Parallel.Runs.within h rfl hright (fun _ _ h => h) fun t ht => ?_
  refine ⟨t.moved s.left.current t.left.callDepth, ⟨ht.marking, rfl⟩, rfl, ?_,
    fun a b => hQ t a b _ _, fun _ h => h⟩
  show { t.right with current := s.left.current, callDepth := t.left.callDepth } =
    { t.right with current := s.right.current }
  rw [← t.mirrors.callDepth, s.mirrors.current]

theorem inCall_runs (s : r.Mirror) (line : Nat) {x : Unit → Eval Value} {y : Eval Value}
    (h : ∀ t, s.Later t → t.Runs x y Alike) :
    s.Runs (fun told => inCall line (x told)) (inCall line y) Alike := by
  have hlater : s.Later (s.moved s.left.current (s.left.callDepth + 1)) := ⟨.refl _, rfl⟩
  have hright : (s.moved s.left.current (s.left.callDepth + 1)).right =
      { s.right with callDepth := s.right.callDepth + 1 } := by
    show { s.right with current := s.left.current, callDepth := s.left.callDepth + 1 } = _
    rw [← s.mirrors.callDepth, ← s.mirrors.current]
  simp only [inCall_eq]
  refine Parallel.Runs.within (h _ hlater) rfl hright (fun f g h => ?_) fun t ht => ?_
  · rcases h with rfl | ⟨hf, hg⟩
    · exact .inl rfl
    · cases f <;> cases hf
      cases g <;> cases hg
      exact .inr ⟨rfl, rfl⟩
  · refine ⟨t.moved t.left.current (t.left.callDepth - 1), ⟨ht.marking, ht.current⟩, rfl, ?_,
      fun _ _ h => h, fun _ h => h⟩
    show { t.right with current := t.left.current, callDepth := t.left.callDepth - 1 } =
      { t.right with callDepth := t.right.callDepth - 1 }
    rw [← t.mirrors.callDepth, ← t.mirrors.current]

theorem laws (r : Renaming) : r.aliases.Laws fun _ => bindMethod where
  callDepth s := s.mirrors.callDepth.symm
  emit := emit_runs
  readClock := readClock_runs
  newInstance s _ _ h := newInstance_runs s h
  getField? := getField?_runs
  setField s ref name _ _ h := setField_runs s ref name h
  bindMethod s _ _ _ _ hf hv := bindMethod_runs s hf hv
  inCall s line _ _ h := inCall_runs s line h

end Mirror

end Renaming
end Lox

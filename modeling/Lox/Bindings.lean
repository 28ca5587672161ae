/-!
Finite maps from names, in the order in which the names were first bound. The main statements say
what `find?` sees after `put`.
-/
namespace Lox

abbrev Bindings (α : Type) := List (String × α)

namespace Bindings
variable {α : Type}

def find? (b : Bindings α) (name : String) : Option α := b.lookup name

/-- Binds a name, in place if it is bound already. -/
def put : Bindings α → String → α → Bindings α
  | [], name, value => [(name, value)]
  | (n, v) :: b, name, value => if n = name then (n, value) :: b else (n, v) :: put b name value

/-- Of several values for one name the last is bound. -/
def ofPairs (pairs : List (String × α)) : Bindings α :=
  pairs.foldl (fun b (name, value) => put b name value) []

def names (b : Bindings α) : List String := b.map Prod.fst

@[simp] theorem find?_nil (name : String) : find? ([] : Bindings α) name = none := rfl

theorem find?_cons (n name : String) (v : α) (b : Bindings α) :
    find? ((n, v) :: b) name = if n = name then some v else find? b name := by
  by_cases h : n = name
  · simp [find?, h]
  · simp [find?, List.lookup_cons, beq_false_of_ne (Ne.symm h), h]

theorem find?_singleton (n name : String) (v : α) :
    find? [(n, v)] name = if n = name then some v else none := find?_cons n name v []

theorem eq_of_find?_singleton {n name : String} {v w : α} (h : find? [(n, v)] name = some w) :
    n = name ∧ v = w := by
  rw [find?_singleton] at h
  split at h
  · next hn => exact ⟨hn, Option.some.inj h⟩
  · cases h

theorem find?_put (b : Bindings α) (n name : String) (v : α) :
    find? (put b n v) name = if n = name then some v else find? b name := by
  induction b with
  | nil => simp [put, find?_cons]
  | cons e b ih =>
    obtain ⟨m, w⟩ := e
    by_cases h : m = n
    · subst h
      by_cases hn : m = name <;> simp [put, find?_cons, hn]
    · by_cases hm : m = name
      · subst hm
        simp [put, find?_cons, h, Ne.symm h]
      · simp [put, find?_cons, h, hm, ih]

theorem put_put (b : Bindings α) (name : String) (v w : α) :
    put (put b name v) name w = put b name w := by
  induction b with
  | nil => simp [put]
  | cons e b ih =>
    obtain ⟨m, u⟩ := e
    by_cases h : m = name <;> simp [put, h, ih]

theorem find?_append (b c : Bindings α) (name : String) :
    find? (b ++ c) name = (find? b name).or (find? c name) := List.lookup_append

theorem mem_of_find? {b : Bindings α} {name : String} {v : α} (h : find? b name = some v) :
    (name, v) ∈ b := by
  obtain ⟨b₁, b₂, rfl, -⟩ := List.lookup_eq_some_iff.1 h
  simp

theorem mem_put {b : Bindings α} {name : String} {v : α} {p : String × α}
    (h : p ∈ put b name v) : p = (name, v) ∨ p ∈ b := by
  induction b with
  | nil => exact .inl (List.mem_singleton.1 h)
  | cons e b ih =>
    obtain ⟨m, w⟩ := e
    by_cases hm : m = name
    · subst hm
      rw [put, if_pos rfl] at h
      exact (List.mem_cons.1 h).imp_right (List.mem_cons_of_mem _)
    · rw [put, if_neg hm] at h
      rcases List.mem_cons.1 h with rfl | h
      · exact .inr List.mem_cons_self
      · exact (ih h).imp_right (List.mem_cons_of_mem _)

theorem isSome_find? {b : Bindings α} {name : String} :
    (find? b name).isSome ↔ name ∈ names b := by
  induction b with
  | nil => simp [names]
  | cons e b ih =>
    obtain ⟨n, v⟩ := e
    by_cases h : n = name
    · simp [find?_cons, names, h]
    · simp [find?_cons, h, ih, names, Ne.symm h]

theorem isSome_find?_singleton {β : Type} {n name : String} {v : α} (w : β)
    (h : (find? [(n, v)] name).isSome) : (find? [(n, w)] name).isSome := by
  rw [isSome_find?] at h ⊢
  exact h

theorem find?_ofPairs (pairs : List (String × α)) (name : String) :
    find? (ofPairs pairs) name = find? (pairs.reverse : Bindings α) name := by
  suffices h : ∀ b : Bindings α, find? (pairs.foldl (fun b p => put b p.1 p.2) b) name =
      (find? (pairs.reverse : Bindings α) name).or (find? b name) by
    simpa [ofPairs] using h []
  induction pairs with
  | nil => intro b; rfl
  | cons p pairs ih =>
    intro b
    rw [List.foldl_cons, ih, find?_put, List.reverse_cons, find?_append, find?_cons,
      Option.or_assoc]
    split <;> rfl

theorem mem_of_find?_ofPairs {pairs : List (String × α)} {name : String} {value : α}
    (h : find? (ofPairs pairs) name = some value) : (name, value) ∈ pairs := by
  rw [find?_ofPairs] at h
  exact List.mem_reverse.1 (mem_of_find? h)

theorem names_put (b : Bindings α) (name : String) (v : α) :
    names (put b name v) = if name ∈ names b then names b else names b ++ [name] := by
  induction b with
  | nil => simp [put, names]
  | cons e b ih =>
    obtain ⟨m, w⟩ := e
    by_cases h : m = name
    · simp [put, names, h]
    · have hn : ¬ name = m := fun e => h e.symm
      by_cases hm : name ∈ names b <;> simp_all [put, names]

end Bindings
end Lox

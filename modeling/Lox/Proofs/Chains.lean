import Lox.Proofs.Heap

/-! Chains. From an environment, link after link leads outward to environments created before it. A
name is looked for along the chain until an environment binds it; an environment so many links away
is found by counting along the same chain. -/

namespace Lox
namespace Environments

/-- Following `d` links from one environment leads to the other. -/
inductive Outward (s : Environments) : Nat → Nat → Nat → Prop
  | here (e : Nat) : s.Outward e 0 e
  | link {e p d a : Nat} : s.link? e = some p → s.Outward p d a → s.Outward e (d + 1) a

/-- From `e`, the nearest environment that binds the name is `a`, and it lies `d` links out. -/
structure Nearest (s : Environments) (x : String) (e d a : Nat) : Prop where
  outward : s.Outward e d a
  binds : (s.find? a x).isSome
  nearer : ∀ d' < d, ∀ a', s.Outward e d' a' → s.find? a' x = none

/-- The search for a name from an environment, link by link, and what it ends with. -/
inductive Searches (s : Environments) (x : String) : Nat → Option Nat → Prop
  | found {e : Nat} : (s.find? e x).isSome → Searches s x e (some e)
  | lost {e : Nat} : s.find? e x = none → s.link? e = none → Searches s x e none
  | further {e p : Nat} {owner : Option Nat} : s.find? e x = none → s.link? e = some p →
      Searches s x p owner → Searches s x e owner

/-- Each link leads to an environment created before. -/
def Linked (s : Environments) : Prop := ∀ e p, s.link? e = some p → p < e

variable {s : Environments} {e p d a a' : Nat} {x : String}

theorem outward_zero_iff : s.Outward e 0 a ↔ a = e := by
  constructor
  · rintro ⟨⟩
    rfl
  · rintro rfl
    exact .here a

theorem outward_succ_iff : s.Outward e (d + 1) a ↔ ∃ p, s.link? e = some p ∧ s.Outward p d a := by
  constructor
  · rintro (_ | ⟨hl, h⟩)
    exact ⟨_, hl, h⟩
  · rintro ⟨p, hl, h⟩
    exact .link hl h

theorem Outward.unique (h : s.Outward e d a) (h' : s.Outward e d a') : a = a' := by
  induction h with
  | here e => exact (outward_zero_iff.1 h').symm
  | link hl _ ih =>
    obtain ⟨p, hl', h'⟩ := outward_succ_iff.1 h'
    cases hl.symm.trans hl'
    exact ih h'

theorem Nearest.self (h : (s.find? e x).isSome) : s.Nearest x e 0 e :=
  ⟨.here e, h, fun _ hd => absurd hd (Nat.not_lt_zero _)⟩

theorem Nearest.link (h : s.Nearest x p d a) (hl : s.link? e = some p) (hx : s.find? e x = none) :
    s.Nearest x e (d + 1) a where
  outward := .link hl h.outward
  binds := h.binds
  nearer
    | 0, _, _, ho => outward_zero_iff.1 ho ▸ hx
    | d' + 1, hd, a', ho => by
      obtain ⟨p', hl', ho⟩ := outward_succ_iff.1 ho
      cases hl.symm.trans hl'
      exact h.nearer d' (Nat.lt_of_succ_lt_succ hd) a' ho

/-- An environment that binds the name is its own nearest; any other has that of the next one. -/
theorem nearest_iff :
    s.Nearest x e d a ↔ ((s.find? e x).isSome ∧ d = 0 ∧ a = e) ∨
      (s.find? e x = none ∧ ∃ p d', s.link? e = some p ∧ d = d' + 1 ∧ s.Nearest x p d' a) := by
  constructor
  · intro h
    cases d with
    | zero =>
      obtain rfl := outward_zero_iff.1 h.outward
      exact .inl ⟨h.binds, rfl, rfl⟩
    | succ d =>
      obtain ⟨p, hl, ho⟩ := outward_succ_iff.1 h.outward
      refine .inr ⟨h.nearer 0 (Nat.succ_pos d) e (.here e), p, d, hl, rfl, ho, h.binds, ?_⟩
      exact fun d' hd a' ho' => h.nearer (d' + 1) (Nat.succ_lt_succ hd) a' (.link hl ho')
  · rintro (⟨hx, rfl, rfl⟩ | ⟨hx, p, d', hl, rfl, h⟩)
    · exact .self hx
    · exact h.link hl hx

theorem Outward.exists_nearest (h : s.Outward e d a) (hx : (s.find? a x).isSome) :
    ∃ d' a', s.Nearest x e d' a' := by
  induction h with
  | here e => exact ⟨0, e, .self hx⟩
  | @link e p _ _ hl _ ih =>
    cases he : s.find? e x with
    | some v => exact ⟨0, e, .self (by rw [he]; rfl)⟩
    | none =>
      obtain ⟨d', a', h⟩ := ih hx
      exact ⟨d' + 1, a', h.link hl he⟩

theorem Nearest.unique {d' : Nat} (h : s.Nearest x e d a) (h' : s.Nearest x e d' a') :
    d = d' ∧ a = a' := by
  have hnot {d d' a a' : Nat} (h : s.Nearest x e d a) (h' : s.Nearest x e d' a') : ¬d < d' := by
    intro hd
    have hb := h.binds
    rw [h'.nearer d hd a h.outward] at hb
    cases hb
  obtain rfl : d = d' := Nat.le_antisymm (Nat.not_lt.1 (hnot h' h)) (Nat.not_lt.1 (hnot h h'))
  exact ⟨rfl, h.outward.unique h'.outward⟩

theorem Searches.unique {r r' : Option Nat} (h : s.Searches x e r) (h' : s.Searches x e r') :
    r = r' := by
  induction h with
  | found hx =>
    cases h' with
    | found _ => rfl
    | lost hx' _ => simp [hx'] at hx
    | further hx' _ _ => simp [hx'] at hx
  | lost hx hl =>
    cases h' with
    | found hx' => simp [hx] at hx'
    | lost _ _ => rfl
    | further _ hl' _ => cases hl.symm.trans hl'
  | further hx hl _ ih =>
    cases h' with
    | found hx' => simp [hx] at hx'
    | lost _ hl' => cases hl.symm.trans hl'
    | further _ hl' h' =>
      cases hl.symm.trans hl'
      exact ih h'

/-- A search ends where the name is bound nearest, or finds it nowhere on the chain. -/
theorem Searches.ends {r : Option Nat} (h : s.Searches x e r) :
    match r with
    | some a => ∃ d, s.Nearest x e d a
    | none => ∀ d a, s.Outward e d a → s.find? a x = none := by
  induction h with
  | found hx => exact ⟨0, .self hx⟩
  | lost hx hl =>
    rintro d a (_ | ⟨hl', -⟩)
    · exact hx
    · cases hl.symm.trans hl'
  | @further e p r hx hl _ ih =>
    cases r with
    | some a =>
      obtain ⟨d, hn⟩ := ih
      exact ⟨d + 1, hn.link hl hx⟩
    | none =>
      rintro d a (_ | ⟨hl', ho⟩)
      · exact hx
      · cases hl.symm.trans hl'
        exact ih _ a ho

theorem Nearest.searches (h : s.Nearest x e d a) : s.Searches x e (some a) := by
  induction d generalizing e with
  | zero =>
    obtain rfl := outward_zero_iff.1 h.outward
    exact .found h.binds
  | succ d ih =>
    obtain ⟨-, hd, -⟩ | ⟨hx, p, d', hl, hd, hn⟩ := nearest_iff.1 h
    · cases hd
    · cases hd
      exact .further hx hl (ih hn)

section
variable (hs : s.Linked)
include hs

theorem Linked.enclosing?_eq_none (h : s.enclosing? e = none) : s.link? e = none := by
  cases hl : s.link? e with
  | none => rfl
  | some p =>
    rw [enclosing?_of_link hl (hs e p hl)] at h
    cases h

/-- Each link leads at least one environment down. -/
theorem Linked.add_le (h : s.Outward e d a) : a + d ≤ e := by
  induction h with
  | here e => exact Nat.le_refl e
  | link hl _ ih =>
    have hlt := hs _ _ hl
    omega

/-- No search goes on forever. -/
theorem Linked.searches (x : String) (e : Nat) : s.Searches x e (s.owner? x e) := by
  fun_induction s.owner? x e with
  | case1 e hx => exact .found hx
  | case2 e hx p hp hpe ih => exact .further (by simpa using hx) (enclosing?_eq_some hpe) ih
  | case3 e hx hpe => exact .lost (by simpa using hx) (hs.enclosing?_eq_none hpe)

theorem Linked.owner?_eq_some_iff : s.owner? x e = some a ↔ ∃ d, s.Nearest x e d a := by
  constructor
  · intro h
    exact (h ▸ hs.searches x e : s.Searches x e (some a)).ends
  · rintro ⟨d, h⟩
    exact (hs.searches x e).unique h.searches

theorem Linked.owner?_isSome_iff :
    (s.owner? x e).isSome ↔ ∃ d a, s.Outward e d a ∧ (s.find? a x).isSome := by
  constructor
  · intro h
    obtain ⟨a, ha⟩ := Option.isSome_iff_exists.1 h
    obtain ⟨d, hn⟩ := hs.owner?_eq_some_iff.1 ha
    exact ⟨d, a, hn.outward, hn.binds⟩
  · rintro ⟨d, a, ho, hx⟩
    obtain ⟨d', a', hn⟩ := ho.exists_nearest hx
    rw [hs.owner?_eq_some_iff.2 ⟨d', hn⟩]
    rfl

theorem Linked.ancestor?_eq_some_iff : s.ancestor? e d = some a ↔ s.Outward e d a := by
  induction d generalizing e with
  | zero =>
    rw [outward_zero_iff, ancestor?, Option.some.injEq]
    exact eq_comm
  | succ d ih =>
    rw [outward_succ_iff]
    cases hl : s.link? e with
    | none =>
      have he : s.enclosing? e = none := by simp [enclosing?, hl]
      simp [ancestor?, he]
    | some p =>
      rw [ancestor?_of_link hl (hs e p hl), ih]
      simp

end
end Environments
end Lox

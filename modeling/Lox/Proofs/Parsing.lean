import Lox.Proofs.Grammar
import Lox.Syntax.StatementParser

/-! What parsers take that do not complain. A complaint is never taken back, so a run without one
had none at any of its steps; what a step took off the front of the tokens stands in front of what
the next one took. -/

namespace Lox
namespace Parser
open Grammar
variable {α β : Type}

/-- Unless `p` complains, the tokens that it takes off the front of `i` and what it makes of them
are as `Q` says. It never gives up without a complaint. -/
def Parses (p : Parser α) (i : List Token) (Q : List Token → α → Prop) : Prop :=
  ∀ cs, match p ⟨i, cs⟩ with
    | .ok a s => s.tokens.length ≤ i.length ∧ cs.length ≤ s.complaints.length ∧
      (s.complaints.length = cs.length → ∃ ts, i = ts ++ s.tokens ∧ Q ts a)
    | .error _ s => s.tokens.length ≤ i.length ∧ cs.length < s.complaints.length

namespace Parses
variable {p : Parser α} {f : α → Parser β} {i : List Token} {Q Q' : List Token → α → Prop}
  {R : List Token → β → Prop}

theorem mono (h : Parses p i Q) (hQ : ∀ ts a, Q ts a → Q' ts a) : Parses p i Q' := by
  intro cs
  have hp := h cs
  cases he : p ⟨i, cs⟩ with
  | error e s =>
    rw [he] at hp
    exact hp
  | ok a s =>
    rw [he] at hp
    obtain ⟨hshort, hmore, hquiet⟩ := hp
    refine ⟨hshort, hmore, fun hq => ?_⟩
    obtain ⟨ts, hi, ha⟩ := hquiet hq
    exact ⟨ts, hi, hQ ts a ha⟩

theorem pure {a : α} (h : Q [] a) : Parses (Pure.pure a) i Q :=
  fun _ => ⟨Nat.le_refl _, Nat.le_refl _, fun _ => ⟨[], rfl, h⟩⟩

theorem fail (problem : Problem) : Parses (Parser.fail problem) i Q :=
  fun cs => ⟨Nat.le_refl _, Nat.lt_succ_self cs.length⟩

theorem bind (h : Parses p i Q)
    (hf : ∀ ts a o, o.length ≤ i.length →
      Parses (f a) o fun us b => i = ts ++ o → Q ts a → R (ts ++ us) b) :
    Parses (p >>= f) i R := by
  intro cs
  have hp := h cs
  rw [bind_run]
  cases he : p ⟨i, cs⟩ with
  | error e s =>
    rw [he] at hp
    exact hp
  | ok a s =>
    rw [he] at hp
    obtain ⟨hshort, hmore, hquiet⟩ := hp
    -- Where `p` has complained, it does not matter what it took.
    obtain ⟨ts, hts⟩ : ∃ ts, s.complaints.length = cs.length → i = ts ++ s.tokens ∧ Q ts a := by
      by_cases hq : s.complaints.length = cs.length
      · obtain ⟨ts, hi, ha⟩ := hquiet hq
        exact ⟨ts, fun _ => ⟨hi, ha⟩⟩
      · exact ⟨[], fun hq' => absurd hq' hq⟩
    have hb := hf ts a s.tokens hshort s.complaints
    dsimp only
    cases hfa : f a s with
    | error e s' =>
      rw [hfa] at hb
      exact ⟨Nat.le_trans hb.1 hshort, Nat.lt_of_le_of_lt hmore hb.2⟩
    | ok b s' =>
      rw [hfa] at hb
      obtain ⟨hshort', hmore', hquiet'⟩ := hb
      refine ⟨Nat.le_trans hshort' hshort, Nat.le_trans hmore hmore', fun hq => ?_⟩
      obtain ⟨hi, ha⟩ := hts (by omega)
      obtain ⟨us, hus, hR⟩ := hquiet' (by omega)
      exact ⟨ts ++ us, by rw [List.append_assoc, ← hus, hi], hR hi ha⟩

theorem map {g : α → β} (h : Parses p i fun ts a => R ts (g a)) : Parses (g <$> p) i R := by
  rw [← bind_pure_comp]
  refine h.bind fun ts a o _ => .pure fun _ ha => ?_
  rwa [List.append_nil]

theorem next {g : Option Token → Parser β} (h : Parses (g i.head?) i R) :
    Parses (next? >>= g) i R := h

theorem complain {g : Unit → Parser β} {problem : Problem} {t : Option Token}
    {R' : List Token → β → Prop} (h : Parses (g ()) i R') :
    Parses (complainAt t problem >>= g) i R := by
  intro cs
  have hg := h (⟨t, problem⟩ :: cs)
  show match g () ⟨i, ⟨t, problem⟩ :: cs⟩ with
    | .ok a s => _
    | .error _ s => _
  cases he : g () ⟨i, ⟨t, problem⟩ :: cs⟩ with
  | error e s =>
    rw [he] at hg
    exact ⟨hg.1, Nat.lt_of_succ_lt hg.2⟩
  | ok b s =>
    rw [he] at hg
    have hnoise : cs.length < s.complaints.length := hg.2.1
    exact ⟨hg.1, Nat.le_of_lt hnoise, fun hq => absurd hq (Nat.ne_of_gt hnoise)⟩

theorem complainHere {g : Unit → Parser β} {problem : Problem} {R' : List Token → β → Prop}
    (h : Parses (g ()) i R') : Parses (Parser.complain problem >>= g) i R :=
  complain (t := i.head?) h

theorem nextIs {g : Bool → Parser β} {kind : Kind}
    (h : Parses (g (i.head?.any (·.kind == kind))) i R) : Parses (Parser.nextIs kind >>= g) i R := h

/-- Taking a token off the front, a parser goes on behind it. -/
theorem behind {q q' : Parser β} {t : Token} (hq : ∀ cs, q ⟨t :: i, cs⟩ = q' ⟨i, cs⟩)
    (h : Parses q' i fun us b => R (t :: us) b) : Parses q (t :: i) R := by
  intro cs
  have hb := h cs
  rw [hq]
  cases he : q' ⟨i, cs⟩ with
  | error e s =>
    rw [he] at hb
    exact ⟨Nat.le_succ_of_le hb.1, hb.2⟩
  | ok b s =>
    rw [he] at hb
    refine ⟨Nat.le_succ_of_le hb.1, hb.2.1, fun hquiet => ?_⟩
    obtain ⟨us, rfl, hR⟩ := hb.2.2 hquiet
    exact ⟨t :: us, rfl, hR⟩

theorem advance {g : Unit → Parser β} {t : Token} (h : Parses (g ()) i fun us b => R (t :: us) b) :
    Parses (Parser.advance >>= g) (t :: i) R :=
  behind (fun _ => rfl) h

theorem acceptIf {g : Option Token → Parser β} {test : Kind → Bool}
    (hnone : (∀ t ∈ i.head?, test t.kind = false) → Parses (g none) i R)
    (hsome : ∀ t o, i = t :: o → test t.kind = true →
      Parses (g (some t)) o fun us b => R (t :: us) b) :
    Parses (Parser.acceptIf test >>= g) i R := by
  cases i with
  | nil => exact hnone fun t ht => nomatch ht
  | cons t o =>
    by_cases ht : test t.kind = true
    · refine behind (fun cs => ?_) (hsome t o rfl ht)
      rw [bind_run, acceptIf_cons, if_pos ht]
    · intro cs
      rw [bind_run, acceptIf_cons, if_neg ht]
      refine hnone (fun u hu => ?_) cs
      cases hu
      simpa using ht

theorem expect {g : Token → Parser β} {kind : Kind} {what : Expected}
    (h : ∀ t o, i = t :: o → t.kind = kind → Parses (g t) o fun us b => R (t :: us) b) :
    Parses (Parser.expect kind what >>= g) i R := by
  unfold Parser.expect accept
  rw [bind_assoc]
  refine acceptIf (fun _ => fail _) fun t o hi ht => ?_
  exact h t o hi (eq_of_beq ht)

/-- The last step of a rule. -/
theorem expectLast {kind : Kind} {what : Expected} {g : Token → β}
    (h : ∀ t, t.kind = kind → R [t] (g t)) :
    Parses (g <$> Parser.expect kind what) i R := by
  rw [← bind_pure_comp]
  exact expect fun t o _ ht => .pure (h t ht)

end Parses

section lists
variable {item : Parser α} {Q : List Token → α → Prop} {i : List Token} {excess : Problem}
  {bound : Nat}

/-- At most `maxArity` items with commas between them. -/
def Listed (Q : List Token → α → Prop) (ts : List Token) (as : List α) : Prop :=
  ∃ items : List (List Token × α), (∀ a ∈ items, Q a.1 a.2) ∧ items.length ≤ maxArity ∧
    Separated (items.map Prod.fst) ts ∧ items.map Prod.snd = as

theorem parses_commaSeparated (hitem : ∀ o, o.length ≤ i.length → Parses item o Q)
    (hsome : ∀ a, ¬Q [] a) (taken : Nat) (h : i.length ≤ bound) :
    Parses (commaSeparated excess item taken bound) i fun ts as =>
      ∃ first items, (∀ a ∈ first :: items, Q a.1 a.2) ∧
        taken + (first :: items).length ≤ maxArity ∧
        Separated (first.1 :: items.map Prod.fst) ts ∧
        first.2 :: items.map Prod.snd = as := by
  induction bound generalizing taken i with
  | zero =>
    have hi : i = [] := List.eq_nil_of_length_eq_zero (Nat.le_zero.1 h)
    refine (hitem i (Nat.le_refl _)).bind fun ts a o _ => .pure fun hts ha => ?_
    obtain ⟨rfl, -⟩ := List.append_eq_nil_iff.1 (hts.symm.trans hi)
    exact absurd ha (hsome a)
  | succ bound ih =>
    have hrest {q : α → Option Token → Parser (List α)} (hlast : ∀ a, q a none = Pure.pure [a])
        (hnext : ∀ a t, q a (some t) =
          (a :: ·) <$> commaSeparated excess item (taken + 1) bound) :
        Parses (item >>= fun a => accept .comma >>= q a) i fun ts as => taken < maxArity →
          ∃ first items, (∀ a ∈ first :: items, Q a.1 a.2) ∧
            taken + (first :: items).length ≤ maxArity ∧
            Separated (first.1 :: items.map Prod.fst) ts ∧
            first.2 :: items.map Prod.snd = as := by
      refine (hitem i (Nat.le_refl _)).bind fun ts a o ho =>
        .acceptIf (fun _ => ?_) fun comma o' ho' hc => ?_
      · rw [hlast]
        refine .pure fun _ ha hroom => ⟨(ts, a), [], ?_, hroom, ?_, rfl⟩
        · simpa using ha
        · simpa using Separated.one
      · subst ho'
        rw [List.length_cons] at ho
        rw [hnext]
        refine .map ((ih (fun u hu => hitem u (by omega)) (taken + 1) (by omega)).mono ?_)
        rintro us as ⟨first, items, hitems, hfew, hus, rfl⟩ - ha -
        refine ⟨(ts, a), first :: items, ?_, ?_, .more (eq_of_beq hc) hus, rfl⟩
        · simpa [ha] using hitems
        · simp only [List.length_cons] at hfew ⊢
          omega
    unfold commaSeparated
    split
    · exact .complainHere (hrest (fun _ => rfl) fun _ _ => rfl)
    · next hroom =>
      refine (hrest (fun _ => rfl) fun _ _ => rfl).mono fun ts as h => h ?_
      exact Nat.lt_of_not_le hroom

theorem parses_list (hitem : ∀ o, o.length ≤ i.length → Parses item o Q) (hsome : ∀ a, ¬Q [] a)
    (h : i.length ≤ bound) : Parses (list bound excess item) i (Listed Q) := by
  refine .nextIs ?_
  split
  · exact .pure ⟨[], by simp, Nat.zero_le _, .none, rfl⟩
  · refine (parses_commaSeparated hitem hsome 0 h).mono ?_
    rintro ts as ⟨first, items, hitems, hfew, hts, rfl⟩
    exact ⟨first :: items, hitems, by simpa using hfew, hts, rfl⟩

end lists

section loops
variable {γ : Type} {loop : Nat → Parser (List α)} {stop : Option Token → Bool} {step : Parser γ}
  {Q : List Token → α → Prop} {i : List Token} {bound : Nat}

/-- A loop that takes an item at each turn stops where it should, if its bound lets it. -/
theorem parses_loop (items : γ → List α) (hzero : loop 0 = pure [])
    (hsucc : ∀ n, loop (n + 1) = next? >>= fun t? =>
      if stop t? then pure [] else step >>= fun c => loop n >>= fun rest => pure (items c ++ rest))
    (hend : stop none = true) (hsome : ∀ a, ¬Q [] a)
    (hstep : ∀ o, o.length ≤ i.length → Parses step o fun ts c => ∃ a, items c = [a] ∧ Q ts a) :
    Parses (loop bound) i fun ts as => Sequence Q ts as ∧
      (i.length ≤ bound → ∀ o, i = ts ++ o → stop o.head? = true) := by
  induction bound generalizing i with
  | zero =>
    rw [hzero]
    refine .pure ⟨.nil, fun hi o ho => ?_⟩
    obtain rfl : o = [] := List.eq_nil_of_length_eq_zero (by
      rw [ho, List.length_append] at hi
      omega)
    exact hend
  | succ bound ih =>
    rw [hsucc]
    refine .next ?_
    split
    · next hstop =>
      refine .pure ⟨.nil, fun _ o ho => ?_⟩
      rwa [ho] at hstop
    · refine (hstep i (Nat.le_refl _)).bind fun ts c o ho => ?_
      refine (ih fun u hu => hstep u (Nat.le_trans hu ho)).bind fun us as o' _ => .pure ?_
      rintro - ⟨hrest, hstop⟩ rfl ⟨a, hc, ha⟩
      rw [List.append_nil, hc]
      refine ⟨.cons ha hrest, fun hlen u hu => hstop ?_ u ?_⟩
      · have hts : 0 < ts.length := List.length_pos_iff.2 fun h => hsome a (h ▸ ha)
        rw [List.length_append] at hlen
        omega
      · rw [List.append_assoc] at hu
        exact List.append_cancel_left hu

end loops

end Parser
end Lox

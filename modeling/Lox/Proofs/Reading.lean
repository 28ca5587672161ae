import Lox.Proofs.Grammar
import Lox.Syntax.StatementParser

/-! Parsers that read without a complaint. What a parser makes of its tokens and what it leaves of
them is stated once for each step; a rule of the grammar then reads what its steps read in turn. -/

namespace Lox.Parser
variable {α β : Type}

/-- From the tokens `i` the parser makes `a`, leaves `o` and has nothing to complain about. -/
def Reads (q : Parser α) (i : List Token) (a : α) (o : List Token) : Prop :=
  ∀ cs, q ⟨i, cs⟩ = .ok a ⟨o, cs⟩

namespace Reads
variable {i m o ts : List Token} {a : α} {b : β} {q : Parser α} {test : Kind → Bool}

theorem pure (a : α) (i : List Token) : Reads (pure a) i a i := fun _ => rfl

theorem bind {f : α → Parser β} (h : Reads q i a m) (hf : Reads (f a) m b o) :
    Reads (q >>= f) i b o := by
  intro cs
  rw [bind_ok (h cs)]
  exact hf cs

theorem map (h : Reads q i a o) (f : α → β) : Reads (f <$> q) i (f a) o :=
  fun cs => map_ok (h cs) f

theorem next (i : List Token) : Reads next? i i.head? i := fun _ => rfl

theorem advance (t : Token) (ts : List Token) : Reads advance (t :: ts) () ts := fun _ => rfl

theorem recover (h : Reads q i a o) : Reads (recover q) i (some a) o := by
  intro cs
  rw [recover_run, h cs]

theorem acceptIf {t : Token} (h : test t.kind = true) :
    Reads (acceptIf test) (t :: ts) (some t) ts := by
  intro cs
  rw [acceptIf_cons, if_pos h]

theorem decline (h : ∀ t ∈ i.head?, test t.kind = false) :
    Reads (Parser.acceptIf test) i none i := by
  intro cs
  cases i with
  | nil => exact acceptIf_nil test cs
  | cons t ts =>
    have ht : ¬test t.kind = true := by rw [h t rfl]; exact Bool.false_ne_true
    rw [acceptIf_cons, if_neg ht]

theorem expect {t : Token} {k : Kind} (h : t.kind = k) (what : Expected) :
    Reads (expect k what) (t :: ts) t ts :=
  (acceptIf (by simp [h])).bind (pure t ts)

theorem nextIs {t : Token} (k : Kind) (h : t.kind ≠ k) :
    Reads (nextIs k) (t :: ts) false (t :: ts) := by
  have hk : Option.any (·.kind == k) (some t) = false := by simp [h]
  exact hk ▸ (next (t :: ts)).bind (pure _ _)

theorem nextIs_self {t : Token} (k : Kind) (h : t.kind = k) :
    Reads (Parser.nextIs k) (t :: ts) true (t :: ts) := by
  have hk : Option.any (·.kind == k) (some t) = true := by simp [h]
  exact hk ▸ (next (t :: ts)).bind (pure _ _)

end Reads

section lists
variable {item : Parser α} {t : Token} {is ts : List Token}

/-- Items of which each is read up to a comma or a closing parenthesis. -/
theorem commaSeparated_reads (excess : Problem) (ht : t.kind = .rightParen)
    (first : List Token × α) (items : List (List Token × α)) (taken bound : Nat)
    (hlisted : Grammar.Separated (first.1 :: items.map Prod.fst) is)
    (hitem : ∀ d ∈ first :: items, ∀ u us, u.kind = .comma ∨ u.kind = .rightParen →
      Reads item (d.1 ++ u :: us) d.2 (u :: us))
    (hfew : taken + (first :: items).length ≤ maxArity) (hbound : items.length ≤ bound) :
    Reads (commaSeparated excess item taken bound) (is ++ t :: ts)
      (first.2 :: items.map Prod.snd) (t :: ts) := by
  have hroom : ¬maxArity ≤ taken := by
    rw [List.length_cons] at hfew
    omega
  induction items generalizing first taken bound is with
  | nil =>
    cases hlisted
    have hfirst := hitem first (List.mem_singleton_self first) t ts (.inr ht)
    cases bound with
    | zero => exact hfirst.bind (.pure _ _)
    | succ bound =>
      have hnone : ∀ u ∈ (t :: ts).head?, (u.kind == Kind.comma) = false := by
        rintro u ⟨⟩
        rw [ht]
        rfl
      rw [commaSeparated, if_neg hroom]
      exact .bind hfirst (.bind (.decline hnone) (.pure _ _))
  | cons second items ih =>
    cases hlisted with
    | @more _ _ us _ comma hcomma hlisted =>
      obtain ⟨bound, rfl⟩ : ∃ k, bound = k + 1 := ⟨bound - 1, by simp at hbound; omega⟩
      simp only [List.length_cons] at hfew hbound
      have hfirst := hitem first List.mem_cons_self comma (us ++ t :: ts) (.inl hcomma)
      have hrest := ih second (taken + 1) bound hlisted
        (fun d hd => hitem d (List.mem_cons_of_mem first hd))
        (by rw [List.length_cons]; omega) (by omega) (by omega)
      rw [commaSeparated, if_neg hroom, List.append_assoc, List.cons_append]
      exact .bind hfirst (.bind (.acceptIf (by simp [hcomma])) (.bind hrest (.pure _ _)))

theorem list_reads (excess : Problem) (ht : t.kind = .rightParen)
    (items : List (List Token × α)) (bound : Nat)
    (hlisted : Grammar.Separated (items.map Prod.fst) is)
    (hitem : ∀ d ∈ items, ∀ u us, u.kind = .comma ∨ u.kind = .rightParen →
      Reads item (d.1 ++ u :: us) d.2 (u :: us))
    (hfirst : ∀ d ∈ items, ∃ u us, d.1 = u :: us ∧ u.kind ≠ .rightParen)
    (hfew : items.length ≤ maxArity) (hbound : items.length ≤ bound + 1) :
    Reads (list bound excess item) (is ++ t :: ts) (items.map Prod.snd) (t :: ts) := by
  cases items with
  | nil =>
    cases hlisted
    exact (Reads.nextIs_self _ ht).bind (.pure _ _)
  | cons first items =>
    obtain ⟨u, us, hu, hk⟩ := hfirst first List.mem_cons_self
    have hread : Reads (commaSeparated excess item 0 bound) (is ++ t :: ts) _ (t :: ts) :=
      commaSeparated_reads excess ht first items 0 bound hlisted hitem (by rwa [Nat.zero_add])
        (Nat.le_of_succ_le_succ hbound)
    rw [List.map_cons, hu] at hlisted
    obtain ⟨vs, rfl⟩ := hlisted.head
    exact .bind (.nextIs _ hk) hread

end lists

section loops
variable {γ : Type} {print : γ → List Token} {make : γ → α}

theorem length_le_flatMap {c : γ} {cs : List γ} (h : c ∈ cs) :
    (print c).length ≤ (cs.flatMap print).length := by
  obtain ⟨before, behind, rfl⟩ := List.append_of_mem h
  rw [List.flatMap_append, List.flatMap_cons, List.length_append, List.length_append]
  omega

theorem length_le_length_flatMap {cs : List γ} (h : ∀ c ∈ cs, 0 < (print c).length) :
    cs.length ≤ (cs.flatMap print).length := by
  induction cs with
  | nil => exact Nat.le_refl 0
  | cons c cs ih =>
    have hc := h c List.mem_cons_self
    have hcs := ih fun d hd => h d (List.mem_cons_of_mem c hd)
    rw [List.flatMap_cons, List.length_append, List.length_cons]
    omega

/-- A loop that takes an item at each turn, unless it is to stop at the next token. What an item is
followed by may matter, as long as every other item may follow. -/
theorem loop_reads {β : Type} {loop : Nat → Parser (List α)} {stop : Option Token → Bool}
    {step : Parser β} (items : β → List α) (give : γ → β) (follows : List Token → Prop)
    (hzero : loop 0 = pure [])
    (hsucc : ∀ n, loop (n + 1) = next? >>= fun t? =>
      if stop t? then pure [] else step >>= fun b => loop n >>= fun rest => pure (items b ++ rest))
    (hitems : ∀ c, items (give c) = [make c]) {cs : List γ} {o : List Token} (ho : follows o)
    (hstop : stop o.head? = true)
    (hgo : ∀ c ∈ cs, ∀ us, stop (print c ++ us).head? = false ∧ follows (print c ++ us))
    (hstep : ∀ c ∈ cs, ∀ us, follows us → Reads step (print c ++ us) (give c) us) {bound : Nat}
    (hbound : cs.length ≤ bound) : Reads (loop bound) (cs.flatMap print ++ o) (cs.map make) o := by
  induction cs generalizing bound with
  | nil =>
    cases bound with
    | zero => exact hzero ▸ .pure _ _
    | succ bound =>
      rw [hsucc, List.flatMap_nil, List.nil_append]
      refine .bind (.next _) ?_
      rw [if_pos hstop]
      exact .pure _ _
  | cons c cs ih =>
    rw [List.length_cons] at hbound
    obtain ⟨bound, rfl⟩ : ∃ k, bound = k + 1 := ⟨bound - 1, by omega⟩
    have hgo' : ∀ d ∈ cs, ∀ us, stop (print d ++ us).head? = false ∧ follows (print d ++ us) :=
      fun d hd => hgo d (List.mem_cons_of_mem c hd)
    have hrest := ih hgo' (fun d hd => hstep d (List.mem_cons_of_mem c hd))
      (Nat.le_of_succ_le_succ hbound)
    have hfollows : follows (cs.flatMap print ++ o) := by
      cases cs with
      | nil => exact ho
      | cons d cs =>
        rw [List.flatMap_cons, List.append_assoc]
        exact (hgo' d List.mem_cons_self _).2
    rw [hsucc, List.flatMap_cons, List.append_assoc]
    refine .bind (.next _) ?_
    rw [(hgo c List.mem_cons_self _).1]
    refine .bind (hstep c List.mem_cons_self _ hfollows) (.bind hrest ?_)
    rw [hitems]
    exact .pure _ _

end loops
end Lox.Parser

import Lox.Proofs.Cursor
import Lox.Proofs.Derivation
/-!
The parser makes progress. Over positions no rule ever goes astray, so every one of them ends, and
it does what the parser does on the tokens that are left. This is shown for a rule from at most `n`
tokens before the end; a rule that calls itself is shown for less than `n` of them first.
-/
namespace Lox.Cursor
variable {text : List Token} {α β : Type} {n k j : Nat}

/-- The tokens not taken yet. -/
def left (c : Cursor text) : Nat := text.length - c.position

/-- The parser that has come to a position. -/
def state (c : Cursor text) : ParserState := ⟨text.drop c.position, c.complaints⟩

/-- From at most `n` tokens before the end, the rule ends as the parser does on the tokens that are
left. With a value it ends `k` tokens further on, or at the end of the text. -/
def Follows (text : List Token) (n k : Nat) (rule : Rule text α) (parser : Parser α) : Prop :=
  ∀ c : Cursor text, c.position ≤ text.length → c.left ≤ n →
    (∃ a d, rule c = .ok (.ok a, d) ∧ parser c.state = .ok a d.state ∧
      c.position ≤ d.position ∧ d.position ≤ text.length ∧ d.left ≤ c.left - k) ∨
    (∃ d, rule c = .ok (.error (), d) ∧ parser c.state = .error () d.state ∧
      c.position ≤ d.position ∧ d.position ≤ text.length)

theorem bind_ok {rule : Rule text α} {c d : Cursor text} {a : α} (h : rule c = .ok (.ok a, d))
    (f : α → Rule text β) : (rule >>= f) c = f a d := by
  show Except.bind (rule c) _ = _
  rw [h]
  rfl

theorem bind_error {rule : Rule text α} {c d : Cursor text}
    (h : rule c = .ok (.error (), d)) (f : α → Rule text β) :
    (rule >>= f) c = .ok (.error (), d) := by
  show Except.bind (rule c) _ = _
  rw [h]
  rfl

namespace Follows
variable {rule : Rule text α} {parser : Parser α} {f : α → Rule text β} {g : α → Parser β}

theorem mono {m i : Nat} (h : Follows text n k rule parser) (hm : m ≤ n) (hi : i ≤ k) :
    Follows text m i rule parser := by
  intro c hc hn
  obtain ⟨a, d, hr, hp, hmoved, hd, hleft⟩ | hgiven := h c hc (Nat.le_trans hn hm)
  · exact .inl ⟨a, d, hr, hp, hmoved, hd, by omega⟩
  · exact .inr hgiven

theorem anyhow (h : Follows text n k rule parser) : Follows text n 0 rule parser :=
  h.mono (Nat.le_refl n) (Nat.zero_le k)

/-- Whatever follows a rule does the same from where the rule begins. -/
theorem unique {m : Nat} {parser' : Parser α} (h : Follows text n k rule parser)
    (h' : Follows text m j rule parser') (c : Cursor text) (hc : c.position ≤ text.length)
    (hn : c.left ≤ n) (hm : c.left ≤ m) : parser c.state = parser' c.state := by
  obtain ⟨a, d, hr, hp, -⟩ | ⟨d, hr, hp, -⟩ := h c hc hn <;>
    obtain ⟨b, e, hr', hp', -⟩ | ⟨e, hr', hp', -⟩ := h' c hc hm <;>
      cases hr.symm.trans hr' <;> rw [hp, hp']

theorem pure (a : α) : Follows text n 0 (Pure.pure a : Rule text α) (Pure.pure a) :=
  fun c hc _ => .inl ⟨a, c, rfl, rfl, Nat.le_refl _, hc, Nat.le_refl _⟩

theorem bind (h : Follows text n j rule parser)
    (hf : ∀ a, Follows text (n - j) (k - j) (f a) (g a)) :
    Follows text n k (rule >>= f) (parser >>= g) := by
  intro c hc hn
  obtain ⟨a, d, hr, hp, hmoved, hd, hleft⟩ | ⟨d, hr, hp, hmoved, hd⟩ := h c hc hn
  · rw [bind_ok hr, Parser.bind_ok hp]
    obtain ⟨b, e, hr, hp, hmoved', he, hleft'⟩ | ⟨e, hr, hp, hmoved', he⟩ :=
      hf a d hd (by omega)
    · exact .inl ⟨b, e, hr, hp, Nat.le_trans hmoved hmoved', he, by omega⟩
    · exact .inr ⟨e, hr, hp, Nat.le_trans hmoved hmoved', he⟩
  · rw [bind_error hr, Parser.bind_run, hp]
    exact .inr ⟨d, rfl, rfl, hmoved, hd⟩

theorem map (h : Follows text n k rule parser) (f : α → β) :
    Follows text n k (f <$> rule) (f <$> parser) := by
  rw [← bind_pure_comp, ← bind_pure_comp]
  exact h.bind fun a => (Nat.sub_self k).symm ▸ .pure (f a)

end Follows

theorem state_of_end {c : Cursor text} (h : c.left = 0) : c.state = ⟨[], c.complaints⟩ := by
  rw [state, List.drop_eq_nil_of_le (Nat.le_of_sub_eq_zero h)]

theorem current_run {c : Cursor text} (hc : c.position ≤ text.length) :
    current c = .ok (.ok text[c.position]?, c) := by
  show (if c.position = text.length then _ else _ : Rule text (Option Token)) c = _
  split
  case isTrue h =>
    rw [h, List.getElem?_eq_none (Nat.le_refl _)]
    rfl
  case isFalse h =>
    rw [List.getElem?_eq_getElem (Nat.lt_of_le_of_ne hc h)]
    rfl

theorem advance_run {c : Cursor text} {t : Token} (ht : text[c.position]? = some t) :
    advance c = .ok (.ok (), ⟨c.position + 1, c.complaints⟩) := by
  have hlt : c.position < text.length := (List.getElem?_eq_some_iff.1 ht).1
  refine (bind_ok (current_run (Nat.le_of_lt hlt)) _).trans ?_
  rw [ht]
  rfl

theorem getElem?_of_left {c : Cursor text} (h : c.left = 0) : text[c.position]? = none :=
  List.getElem?_eq_none (Nat.le_of_sub_eq_zero h)

theorem advance_of_end {c : Cursor text} (hc : c.position ≤ text.length) (h : c.left = 0) :
    advance c = .ok (.ok (), c) := by
  refine (bind_ok (current_run hc) _).trans ?_
  rw [getElem?_of_left h]
  rfl

theorem next?_run (c : Cursor text) : Parser.next? c.state = .ok text[c.position]? c.state := by
  show EStateM.Result.ok (text.drop c.position).head? c.state = _
  rw [List.head?_drop]

namespace Follows
variable {f : Option Token → Rule text α} {g : Option Token → Parser α}

/-- What stands next decides; where something does, the end is further on. -/
theorem current (hnone : Follows text n k (f none) (g none))
    (hsome : ∀ t, 0 < n → Follows text n k (f (some t)) (g (some t))) :
    Follows text n k (Cursor.current >>= f) (Parser.next? >>= g) := by
  intro c hc hn
  rw [bind_ok (current_run hc), Parser.bind_ok (next?_run c)]
  cases h : text[c.position]? with
  | none => exact hnone c hc hn
  | some t =>
    have hlt : c.position < text.length := (List.getElem?_eq_some_iff.1 h).1
    exact hsome t (Nat.lt_of_lt_of_le (Nat.sub_pos_of_lt hlt) hn) c hc hn

theorem advance (n : Nat) : Follows text n 1 Cursor.advance Parser.advance := by
  intro c hc _
  refine .inl ?_
  cases h : text[c.position]? with
  | some t =>
    have hlt : c.position < text.length := (List.getElem?_eq_some_iff.1 h).1
    refine ⟨(), _, advance_run h, ?_, Nat.le_succ _, hlt, ?_⟩
    · show EStateM.Result.ok () (ParserState.mk (text.drop c.position).tail c.complaints) = _
      rw [List.tail_drop]
      rfl
    · show text.length - (c.position + 1) ≤ text.length - c.position - 1
      omega
  | none =>
    have hend : c.left = 0 := Nat.sub_eq_zero_of_le (List.getElem?_eq_none_iff.1 h)
    refine ⟨(), c, advance_of_end hc hend, ?_, Nat.le_refl _, hc, by omega⟩
    rw [state_of_end hend]
    rfl

theorem complainAt (t : Option Token) (problem : Problem) (n : Nat) :
    Follows text n 0 (Cursor.complainAt t problem) (Parser.complainAt t problem) :=
  fun c hc _ => .inl ⟨(), Cursor.mk c.position (⟨t, problem⟩ :: c.complaints), rfl, rfl,
    Nat.le_refl _, hc, Nat.le_refl _⟩

theorem complain (problem : Problem) (n : Nat) :
    Follows text n 0 (Cursor.complain problem) (Parser.complain problem) :=
  .current (.complainAt none problem n) fun t _ => .complainAt (some t) problem n

theorem complainIf {rule : Rule text α} {parser : Parser α} {p : Prop} [Decidable p]
    {problem : Problem} (h : Follows text n k rule parser) :
    Follows text n k (if p then Cursor.complain problem >>= fun _ => rule else rule)
      (if p then Parser.complain problem >>= fun _ => parser else parser) := by
  split
  · exact (Follows.complain problem n).bind fun _ => h
  · exact h

theorem throw (n k : Nat) :
    Follows text n k (MonadExceptOf.throw () : Rule text α) (MonadExceptOf.throw ()) :=
  fun c hc _ => .inr ⟨c, rfl, rfl, Nat.le_refl _, hc⟩

theorem fail (problem : Problem) (n k : Nat) :
    Follows text n k (Cursor.fail problem : Rule text α) (Parser.fail problem) := by
  exact (Follows.complain problem n).bind fun _ => .throw _ _

theorem nextIs (kind : Kind) (n : Nat) :
    Follows text n 0 (Cursor.nextIs kind) (Parser.nextIs kind) :=
  .current (.pure _) fun _ _ => .pure _

theorem acceptIf {test : Kind → Bool} (hnone : Follows text n k (f none) (g none))
    (hsome : ∀ t, 0 < n → Follows text (n - 1) (k - 1) (f (some t)) (g (some t))) :
    Follows text n k (Cursor.acceptIf test >>= f) (Parser.acceptIf test >>= g) := by
  unfold Cursor.acceptIf Parser.acceptIf
  rw [bind_assoc, bind_assoc]
  refine .current hnone fun t hn => ?_
  dsimp only
  split
  · rw [bind_assoc, bind_assoc]
    exact (Follows.advance n).bind fun _ => hsome t hn
  · exact hnone

theorem expect (kind : Kind) (what : Expected) (n : Nat) :
    Follows text n 1 (Cursor.expect kind what) (Parser.expect kind what) :=
  .acceptIf (.fail _ _ _) fun _ _ => .pure _

end Follows

/-- Rules that call each other, against the parser with a bound. A rule from `m` tokens before the
end takes a bound of `m`, and of as many more as the index needs. -/
theorem follows_again {ι : Type} {α : ι → Type}
    {rule : ((i : ι) → Rule text (α i)) → (i : ι) → Rule text (α i)}
    (parser : (i : ι) → Nat → Parser (α i)) (need : ι → Nat)
    (hzero : ∀ i, need i = 0 → ∀ cs, parser i 0 ⟨[], cs⟩ = parser i 1 ⟨[], cs⟩)
    (hsucc : ∀ m ≤ n, ∀ next,
      (∀ l < m, ∀ i bound, l + need i ≤ bound → Follows text l k (next i) (parser i bound)) →
      ∀ i bound, m + need i ≤ bound + 1 → Follows text m k (rule next i) (parser i (bound + 1))) :
    ∀ i bound, n + need i ≤ bound → Follows text n k (again rule i) (parser i bound) := by
  have hbelow : ∀ m ≤ n, ∀ i bound, m + need i ≤ bound →
      Follows text m k (again rule i) (parser i bound) := by
    intro m hm
    induction m using Nat.strongRecOn with
    | ind m ih =>
      intro i bound hbound c hc hleft
      let next (i : ι) : Rule text (α i) := fun d =>
        if Onward text c.position d.position then again rule i d else .error .idle
      have hnext : ∀ l < c.left, ∀ i bound, l + need i ≤ bound →
          Follows text l k (next i) (parser i bound) := by
        intro l hl i bound hbound d hd hdleft
        have honward : Onward text c.position d.position := by
          refine ⟨?_, hd⟩
          unfold left at hl hdleft
          omega
        have hrun : next i d = again rule i d := if_pos honward
        rw [hrun]
        exact ih l (by omega) (by omega) i bound hbound d hd hdleft
      rw [again]
      -- A bound of 0 is left only where no token is, and there 1 would do the same.
      cases bound with
      | succ bound =>
        exact hsucc c.left (by omega) next hnext i bound (by omega) c hc (Nat.le_refl _)
      | zero =>
        rw [state_of_end (by omega), hzero i (by omega), ← state_of_end (by omega)]
        exact hsucc c.left (by omega) next hnext i 0 (by omega) c hc (Nat.le_refl _)
  exact hbelow n (Nat.le_refl n)

theorem follows_repeated {rule : Rule text α → Rule text α} {parser : Nat → Parser α}
    (hzero : ∀ cs, parser 0 ⟨[], cs⟩ = parser 1 ⟨[], cs⟩)
    (hsucc : ∀ m ≤ n, ∀ next, (∀ l < m, ∀ bound, l ≤ bound → Follows text l k next (parser bound)) →
      ∀ bound, m ≤ bound + 1 → Follows text m k (rule next) (parser (bound + 1)))
    {bound : Nat} (hbound : n ≤ bound) : Follows text n k (repeated rule) (parser bound) :=
  follows_again (fun _ => parser) (fun _ => 0) (fun _ _ => hzero)
    (fun m hm next hnext _ => hsucc m hm (next ()) fun l hl => hnext l hl ()) () bound hbound

section lists
variable {excess : Problem} {item : Rule text α} {item' : Parser α} {bound : Nat}

/-- Behind the first item the bound is one more than it needs to be, since a comma was taken as
well. That keeps the bound from ending the list where an item was still to be complained about. -/
theorem follows_commaSeparated (h : Follows text n 1 item item') (hbound : n ≤ bound) :
    Follows text n 0 (commaSeparated excess item 0)
      (Parser.commaSeparated excess item' 0 bound) := by
  refine follows_again (Parser.commaSeparated excess item')
    (fun taken => min taken 1) ?_ ?_ 0 bound hbound
  · intro taken htaken cs
    obtain rfl : taken = 0 := by omega
    have hend : state ⟨text.length, cs⟩ = ⟨[], cs⟩ := state_of_end (Nat.sub_self _)
    have hleft : (Cursor.mk text.length cs : Cursor text).left ≤ n := by simp [left]
    have hitem := h ⟨text.length, cs⟩ (Nat.le_refl _) hleft
    rw [hend] at hitem
    rw [Parser.commaSeparated, Parser.commaSeparated, if_neg (by decide)]
    dsimp only
    obtain ⟨a, d, -, hp, -, -, hd⟩ | ⟨d, -, hp, -, -⟩ := hitem
    · rw [state_of_end (c := d) (by simp [left] at hd ⊢; omega)] at hp
      rw [Parser.bind_ok hp, Parser.bind_ok hp]
      rfl
    · rw [Parser.bind_run, Parser.bind_run, hp]
  · intro m hm next hnext taken bound hbound
    rw [Parser.commaSeparated]
    refine .complainIf (.bind (h.mono hm (Nat.le_refl 1)) fun first =>
      .acceptIf (.pure _) fun t hlt => ?_)
    exact .bind (hnext (m - 1 - 1) (by omega) (taken + 1) bound (by omega)) fun _ => .pure _

theorem follows_list (h : Follows text n 1 item item') (hbound : n ≤ bound) :
    Follows text n 0 (list excess item) (Parser.list bound excess item') := by
  refine .bind (.nextIs _ _) fun closed => ?_
  split
  · exact .pure _
  · exact follows_commaSeparated h hbound

end lists

theorem previous_run {c : Cursor text} {t : Token} {p : Nat} (hp : c.position = p + 1)
    (ht : text[p]? = some t) : previous c = .ok (.ok t, c) := by
  obtain ⟨_, complaints⟩ := c
  cases hp
  refine (bind_ok (a := ⟨p + 1, complaints⟩) rfl _).trans ?_
  dsimp only
  rw [ht]
  rfl

theorem repeated_run (rule : Rule text α → Rule text α) (c : Cursor text) :
    repeated rule c = rule (fun d =>
      if Onward text c.position d.position then repeated rule d else .error .idle) c := by
  rw [repeated, again]

theorem skip_of_end {c : Cursor text} (hc : c.position ≤ text.length) (h : c.left = 0) :
    skip c = .ok (.ok (), c) := by
  rw [skip, repeated_run, bind_ok (current_run hc), getElem?_of_left h]
  rfl

theorem skip_run {c : Cursor text} {t : Token} {p : Nat} (hp : c.position = p + 1)
    (hc : c.position ≤ text.length) (ht : text[p]? = some t) :
    ∃ d : Cursor text, skip c = .ok (.ok (), d) ∧
      d.state = ⟨Parser.nextStatement t c.state.tokens, c.complaints⟩ ∧
      c.position ≤ d.position ∧ d.position ≤ text.length := by
  induction hn : c.left generalizing c t p with
  | zero =>
    exact ⟨c, skip_of_end hc hn, by rw [state_of_end hn]; rfl, Nat.le_refl _, hc⟩
  | succ n ih =>
    have hlt : c.position < text.length := by unfold left at hn; omega
    have hu : text[c.position]? = some text[c.position] := List.getElem?_eq_getElem hlt
    have htokens : c.state.tokens = text[c.position] :: text.drop (c.position + 1) :=
      List.drop_eq_getElem_cons hlt
    rw [skip, repeated_run, bind_ok (current_run hc), hu, htokens, Parser.nextStatement]
    dsimp only
    -- The parser is handed the previous token; the rule looks back at it.
    rw [bind_ok (previous_run hp ht)]
    split
    case isTrue => exact ⟨c, rfl, by rw [← htokens]; rfl, Nat.le_refl _, hc⟩
    case isFalse =>
      have hnext := ih (c := ⟨c.position + 1, c.complaints⟩) rfl hlt hu
        (by simp only [left] at hn ⊢; omega)
      obtain ⟨d, hrun, hstate, hmoved, hd⟩ := hnext
      rw [bind_ok (advance_run hu), if_pos ⟨Nat.lt_succ_self _, hlt⟩]
      exact ⟨d, hrun, hstate, Nat.le_of_succ_le hmoved, hd⟩

/-- From where a rule was given up, `synchronize` takes a token unless none is left. -/
theorem synchronize_run {c : Cursor text} (hc : c.position ≤ text.length) :
    ∃ d : Cursor text, synchronize c = .ok (.ok (), d) ∧
      d.state = ⟨Parser.synchronize c.state.tokens, c.complaints⟩ ∧
      (c.position < d.position ∨ d.position = text.length) ∧ c.position ≤ d.position ∧
      d.position ≤ text.length := by
  rcases Nat.lt_or_eq_of_le hc with hlt | hend
  · have ht : text[c.position]? = some text[c.position] := List.getElem?_eq_getElem hlt
    have hskip := skip_run (c := ⟨c.position + 1, c.complaints⟩) rfl hlt ht
    obtain ⟨d, hrun, hstate, hmoved, hd⟩ := hskip
    have htokens : c.state.tokens = text[c.position] :: text.drop (c.position + 1) :=
      List.drop_eq_getElem_cons hlt
    refine ⟨d, (bind_ok (advance_run ht) _).trans hrun, ?_, .inl hmoved, Nat.le_of_succ_le hmoved,
      hd⟩
    rw [htokens]
    exact hstate
  · have hleft : c.left = 0 := by unfold left; omega
    refine ⟨c, (bind_ok (advance_of_end hc hleft) _).trans (skip_of_end hc hleft), ?_, .inr hend,
      Nat.le_refl _, hc⟩
    rw [state_of_end hleft]
    rfl

section catching
variable {rule : Rule text α} {c d : Cursor text}

theorem catch_ok {a : α} (h : rule c = .ok (.ok a, d)) (f : Unit → Rule text (Option α)) :
    tryCatch (some <$> rule) f c = .ok (.ok (some a), d) := by
  show Except.bind (Except.bind (rule c) _) _ = _
  rw [h]
  rfl

theorem catch_error (h : rule c = .ok (.error (), d)) (f : Unit → Rule text (Option α)) :
    tryCatch (some <$> rule) f c = f () d := by
  show Except.bind (Except.bind (rule c) _) _ = _
  rw [h]
  rfl

theorem recover_error {e : Cursor text} (h : rule c = .ok (.error (), d))
    (hrun : synchronize d = .ok (.ok (), e))
    (hmoved : d.position < e.position ∨ e.position = text.length) :
    recover rule c = .ok (.ok none, e) := by
  rw [recover, catch_error h, bind_ok (a := d) (d := d) rfl, bind_ok hrun,
    bind_ok (a := e) (d := e) rfl, if_pos hmoved]
  rfl

end catching

theorem follows_recover {rule : Rule text α} {parser : Parser α}
    (h : Follows text n 1 rule parser) :
    Follows text n 1 (recover rule) (Parser.recover parser) := by
  intro c hc hn
  refine .inl ?_
  rw [Parser.recover_run]
  obtain ⟨a, d, hr, hp, hmoved, hd, hleft⟩ | ⟨d, hr, hp, hmoved, hd⟩ := h c hc hn
  · exact ⟨some a, d, catch_ok hr _, by rw [hp], hmoved, hd, hleft⟩
  · obtain ⟨e, hrun, hstate, hfurther, hmoved', he⟩ := synchronize_run hd
    refine ⟨none, e, recover_error hr hrun hfurther, by rw [hp, hstate]; rfl,
      Nat.le_trans hmoved hmoved', he, ?_⟩
    unfold left
    omega

section expressions
variable {nested operand : Rule text RawExpr} {nested' operand' : Parser RawExpr} {bound : Nat}

/-- A rule that is only called behind a token of its caller. -/
def FollowsBehind (n : Nat) (nested : Rule text α) (nested' : Parser α) : Prop :=
  ∀ m < n, Follows text m 1 nested nested'

theorem follows_primary (h : FollowsBehind n nested nested') :
    Follows text n 1 (primary nested) (Parser.primary nested') := by
  refine .current (.fail _ _ _) fun t ht => ?_
  have hnext : n - 1 < n := Nat.sub_lt ht Nat.one_pos
  dsimp only
  cases t.kind with
  | literal value => exact .bind (.advance _) fun _ => .pure _
  | identifier => exact .bind (.advance _) fun _ => .pure _
  | leftParen =>
    refine .bind (.advance _) fun _ => .bind (h _ hnext) fun _ => ?_
    exact .bind (.expect _ _ _) fun _ => .pure _
  | keyword word =>
    cases word with
    | this => exact .bind (.advance _) fun _ => .pure _
    | super =>
      refine .bind (.advance _) fun _ => .bind (.expect _ _ _) fun _ => ?_
      exact .bind (.expect _ _ _) fun _ => .pure _
    | _ => exact .fail _ _ _
  | _ => exact .fail _ _ _

theorem follows_suffixes (h : FollowsBehind n nested nested') (hbound : n ≤ bound)
    (callee : RawExpr) :
    Follows text n 0 (suffixes nested callee) (Parser.suffixes nested' callee bound) := by
  refine follows_again (Parser.suffixes nested') (fun _ => 0) (fun _ _ _ => rfl) ?_
    callee bound hbound
  intro m hm next hnext callee bound hbound
  refine .acceptIf (.pure _) fun t ht => ?_
  dsimp only
  split
  · refine .bind (follows_list (h _ (by omega)) (by omega)) fun _ => ?_
    refine .bind (.expect _ _ _) fun _ => ?_
    exact hnext _ (by omega) _ _ (by omega)
  · exact .bind (.expect _ _ _) fun _ => hnext _ (by omega) _ _ (by omega)

theorem follows_unary (h : Follows text n 1 operand operand') (hbound : n ≤ bound) :
    Follows text n 1 (unary operand) (Parser.unary operand' bound) := by
  refine follows_repeated (fun _ => rfl) (fun m hm next hnext bound hbound => ?_) hbound
  refine .acceptIf (h.mono hm (Nat.le_refl 1)) fun t ht => ?_
  exact .map (hnext (m - 1) (by omega) bound (by omega)).anyhow _

theorem follows_chain {level : Parser.Level} (h : Follows text n 1 operand operand')
    (hbound : n ≤ bound) (left : RawExpr) :
    Follows text n 0 (chain level operand left) (level.chain operand' left bound) := by
  refine follows_again (level.chain operand') (fun _ => 0) (fun _ _ _ => rfl) ?_ left
    bound hbound
  intro m hm next hnext left bound hbound
  refine .acceptIf (.pure _) fun t ht => ?_
  refine .bind (h.mono (by omega) (Nat.le_refl 1)) fun _ => ?_
  exact hnext _ (by omega) _ _ (by omega)

theorem follows_levels (levels : List Parser.Level) (h : Follows text n 1 operand operand')
    (hbound : n ≤ bound) :
    Follows text n 1 (levels.foldl (fun operand l => level l operand) operand)
      (levels.foldl (fun operand' l => l.parser bound operand') operand') := by
  induction levels generalizing operand operand' with
  | nil => exact h
  | cons l levels ih =>
    exact ih (.bind h fun left =>
      (follows_chain h hbound left).mono (Nat.sub_le n 1) (Nat.le_refl 0))

theorem follows_operation (h : FollowsBehind n nested nested') (hbound : n ≤ bound) :
    Follows text n 1 (operation nested) (Parser.operation bound nested') := by
  have hcall : Follows text n 1 (call nested) (Parser.call bound nested') :=
    .bind (follows_primary h) fun callee =>
      (follows_suffixes h hbound callee).mono (Nat.sub_le n 1) (Nat.le_refl 0)
  exact follows_levels _ (follows_unary hcall hbound) hbound

theorem follows_assignment (h : FollowsBehind n nested nested') (hbound : n ≤ bound) :
    Follows text n 1 (assignment nested) (Parser.assignment bound nested') := by
  refine .bind (follows_operation h hbound) fun left => .acceptIf (.pure _) fun t ht => ?_
  refine .bind (h _ (by omega)) fun value => ?_
  cases Parser.assignTo t.line value left with
  | some assigned => exact .pure _
  | none => exact .bind (.complainAt _ _ _) fun _ => .pure _

theorem follows_expression (hbound : n ≤ bound) :
    Follows text n 1 expression (Parser.expression bound) := by
  refine follows_repeated (fun _ => rfl) (fun m hm next hnext bound hbound => ?_) hbound
  exact follows_assignment (fun l hl => hnext l hl bound (by omega)) hbound

theorem follows_soleExpression (hbound : n ≤ bound) :
    Follows text n 0 soleExpression (Parser.soleExpression bound) := by
  refine .bind (follows_expression hbound) fun e => .current (.pure _) fun t ht => ?_
  exact .bind (.fail _ _ 0) fun _ => .pure _

end expressions

section statements
variable {d : Rule text (Option RawStmt)} {d' : Parser (Option RawStmt)} {bound : Nat}
  {forms : Forms text} {forms' : Parser.Forms}

theorem follows_declarations (h : Follows text n 1 d d') (hbound : n ≤ bound) :
    Follows text n 0 (declarations d) (Parser.declarations d' bound) := by
  refine follows_repeated (fun _ => rfl) (fun m hm next hnext bound hbound => ?_) hbound
  refine .current (.pure _) fun t ht => ?_
  split
  · exact .pure _
  · refine .bind (h.mono hm (Nat.le_refl 1)) fun first => ?_
    exact .bind (hnext _ (by omega) _ (by omega)) fun _ => .pure _

/-- The rules for nested forms, from `n` tokens before the end. -/
structure Forms.Follow (n : Nat) (forms : Forms text) (forms' : Parser.Forms) : Prop where
  bound : n ≤ forms'.bound
  statement : Follows text n 1 forms.statement forms'.statement
  declaration : Follows text n 1 forms.declaration forms'.declaration

theorem Forms.Follow.mono {m : Nat} (h : Forms.Follow n forms forms') (hm : m ≤ n) :
    Forms.Follow m forms forms' :=
  ⟨Nat.le_trans hm h.bound, h.statement.mono hm (Nat.le_refl 1),
    h.declaration.mono hm (Nat.le_refl 1)⟩

theorem follows_block (h : Forms.Follow n forms forms') :
    Follows text n 1 (block forms) (Parser.block forms') :=
  .bind (follows_declarations h.declaration h.bound) fun _ =>
    .bind (.expect _ _ _) fun _ => .pure _

theorem follows_function (h : Forms.Follow n forms forms') (c : Callable) :
    Follows text n 1 (function forms c) (Parser.function forms' c) := by
  refine .bind (.expect _ _ _) fun name => .bind (.expect _ _ _) fun _ => ?_
  have hbound : n - 1 - 1 ≤ forms'.bound := (h.mono (by omega)).bound
  refine .bind (follows_list (.expect _ _ _) hbound) fun parameters => ?_
  refine .bind (.expect _ _ _) fun _ => .bind (.expect _ _ _) fun _ => ?_
  exact .bind (follows_block (h.mono (by omega))) fun _ => .pure _

theorem follows_methods (h : Forms.Follow n forms forms') (hbound : n ≤ bound) :
    Follows text n 0 (methods forms) (Parser.methods forms' bound) := by
  refine follows_repeated (fun _ => rfl) (fun m hm next hnext bound hbound => ?_) hbound
  refine .current (.pure _) fun t ht => ?_
  split
  · exact .pure _
  · refine .bind (follows_function (h.mono hm) .method) fun first => ?_
    exact .bind (hnext _ (by omega) _ (by omega)) fun _ => .pure _

theorem follows_superclassClause (n : Nat) :
    Follows text n 0 superclassClause Parser.superclassClause :=
  .acceptIf (.pure _) fun _ _ => .map (Follows.expect _ _ _).anyhow _

theorem follows_classDeclaration (h : Forms.Follow n forms forms') (keyword : Token) :
    Follows text n 1 (classDeclaration forms keyword) (Parser.classDeclaration forms' keyword) := by
  refine .bind (.expect _ _ _) fun name => .bind (follows_superclassClause _) fun superclass => ?_
  refine .bind (.expect _ _ _) fun _ => ?_
  have hbody : Forms.Follow (n - 1 - 1) forms forms' := h.mono (by omega)
  refine .bind (follows_methods hbody hbody.bound) fun methods => ?_
  exact .bind (.expect _ _ _) fun _ => .pure _

theorem follows_initializerClause (hbound : n ≤ bound) :
    Follows text n 0 initializerClause (Parser.initializerClause bound) :=
  .acceptIf (.pure _) fun _ _ =>
    .map (follows_expression (Nat.le_trans (Nat.sub_le n 1) hbound)).anyhow _

theorem follows_varDeclaration (hbound : n ≤ bound) :
    Follows text n 1 varDeclaration (Parser.varDeclaration bound) := by
  refine .bind (.expect _ _ _) fun name => ?_
  refine .bind (follows_initializerClause (by omega)) fun initializer => ?_
  exact .bind (.expect _ _ _) fun _ => .pure _

theorem follows_expressionStatement (hbound : n ≤ bound) :
    Follows text n 1 expressionStatement (Parser.expressionStatement bound) := by
  have hfrom (line : Nat) : Follows text n 1
      (do
        let value ← expression
        let _ ← expect .semicolon .statementEnd
        return .expression line value)
      (do
        let value ← Parser.expression bound
        let _ ← Parser.expect .semicolon .statementEnd
        return Stmt.expression line value) :=
    .bind (follows_expression hbound) fun _ => .bind (.expect _ _ _) fun _ => .pure _
  exact .current (hfrom 0) fun t _ => hfrom t.line

theorem follows_optional (closing : Kind) (hbound : n ≤ bound) :
    Follows text n 0 (optional closing) (Parser.optional bound closing) := by
  refine .bind (.nextIs closing n) fun closed => ?_
  split
  · exact .pure _
  · exact .map (follows_expression hbound).anyhow _

theorem follows_forInitializer (hbound : n ≤ bound) :
    Follows text n 1 forInitializer (Parser.forInitializer bound) := by
  refine .acceptIf (.map (follows_expressionStatement hbound) _) fun t ht => ?_
  dsimp only
  split
  · exact .pure _
  · exact .map (follows_varDeclaration (by omega)).anyhow _

theorem follows_forStatement (h : Forms.Follow n forms forms') (keyword : Token) :
    Follows text n 1 (forStatement forms keyword) (Parser.forStatement forms' keyword) := by
  have hbound := h.bound
  refine .bind (.expect _ _ _) fun _ => ?_
  refine .bind (follows_forInitializer (by omega)) fun initializer => ?_
  refine .bind (follows_optional _ (by omega)) fun condition => .bind (.expect _ _ _) fun _ => ?_
  refine .bind (follows_optional _ (by omega)) fun increment => .bind (.expect _ _ _) fun _ => ?_
  exact .bind (h.mono (by omega)).statement fun body => .pure _

theorem follows_ifStatement (h : Forms.Follow n forms forms') (keyword : Token) :
    Follows text n 1 (ifStatement forms keyword) (Parser.ifStatement forms' keyword) := by
  have hbound := h.bound
  refine .bind (.expect _ _ _) fun _ => ?_
  refine .bind (follows_expression (by omega)) fun condition => .bind (.expect _ _ _) fun _ => ?_
  refine .bind (h.mono (by omega)).statement fun thenBranch => .acceptIf (.pure _) fun t ht => ?_
  exact .bind (h.mono (by omega)).statement fun elseBranch => .pure _

theorem follows_printStatement (hbound : n ≤ bound) (keyword : Token) :
    Follows text n 1 (printStatement keyword) (Parser.printStatement bound keyword) :=
  .bind (follows_expression hbound) fun _ => .bind (.expect _ _ _) fun _ => .pure _

theorem follows_returnStatement (hbound : n ≤ bound) (keyword : Token) :
    Follows text n 1 (returnStatement keyword) (Parser.returnStatement bound keyword) :=
  .bind (follows_optional _ hbound) fun _ => .bind (.expect _ _ _) fun _ => .pure _

theorem follows_whileStatement (h : Forms.Follow n forms forms') (keyword : Token) :
    Follows text n 1 (whileStatement forms keyword) (Parser.whileStatement forms' keyword) := by
  have hbound := h.bound
  refine .bind (.expect _ _ _) fun _ => ?_
  refine .bind (follows_expression (by omega)) fun condition => .bind (.expect _ _ _) fun _ => ?_
  exact .bind (h.mono (by omega)).statement fun body => .pure _

theorem follows_statement (hbound : n ≤ forms'.bound)
    (h : 0 < n → Forms.Follow (n - 1) forms forms') :
    Follows text n 1 (statement forms) (Parser.statement forms') := by
  refine .acceptIf (follows_expressionStatement hbound) fun t ht => ?_
  have hnested := h ht
  dsimp only
  cases t.kind with
  | keyword word =>
    cases word with
    | for_ => exact (follows_forStatement hnested t).anyhow
    | if_ => exact (follows_ifStatement hnested t).anyhow
    | print => exact (follows_printStatement hnested.bound t).anyhow
    | return_ => exact (follows_returnStatement hnested.bound t).anyhow
    | while_ => exact (follows_whileStatement hnested t).anyhow
    | _ => exact .bind (follows_block hnested).anyhow fun _ => .pure _
  | _ => exact .bind (follows_block hnested).anyhow fun _ => .pure _

theorem follows_declaration (hbound : n ≤ forms'.bound)
    (h : 0 < n → Forms.Follow (n - 1) forms forms') :
    Follows text n 1 (declaration forms) (Parser.declaration forms') := by
  refine .acceptIf (follows_statement hbound h) fun t ht => ?_
  have hnested := h ht
  have hvar : Follows text (n - 1) 0 varDeclaration
      (Parser.varDeclaration forms'.bound) := (follows_varDeclaration hnested.bound).anyhow
  dsimp only
  cases t.kind with
  | keyword word =>
    cases word with
    | class_ => exact (follows_classDeclaration hnested t).anyhow
    | fun_ => exact .map (follows_function hnested .function).anyhow _
    | _ => exact hvar
  | _ => exact hvar

/-- The rule of the parser for each form. -/
def Form.parser : (f : Form) → Nat → Parser f.Tree
  | statement => Parser.nestedStatement
  | declaration => Parser.nestedDeclaration

theorem follows_form (f : Form) (hbound : n ≤ bound) :
    Follows text n 1 (form f) (f.parser bound) := by
  refine follows_again Form.parser (fun _ => 0) (fun f _ _ => by cases f <;> rfl) ?_ f bound hbound
  intro m hm next hnext f bound hbound
  have hforms (hm : 0 < m) : Forms.Follow (m - 1) ⟨next .statement, next .declaration⟩
      ⟨bound + 1, Parser.nestedStatement bound, Parser.nestedDeclaration bound⟩ :=
    ⟨Nat.le_trans (Nat.sub_le m 1) hbound, hnext _ (by omega) .statement bound (by omega),
      hnext _ (by omega) .declaration bound (by omega)⟩
  cases f with
  | statement => exact follows_statement hbound hforms
  | declaration => exact follows_recover (follows_declaration hbound hforms)

/-- A bound may be larger than it needs to be, and need not be the one for the declarations. -/
theorem follows_program {inner : Nat} (hinner : n ≤ inner) (hbound : n ≤ bound) :
    Follows text n 0 program
      (Parser.program (Parser.nestedDeclaration inner) bound) := by
  refine follows_repeated (fun _ => rfl) (fun m hm next hnext bound hbound => ?_) hbound
  refine .current (.pure _) fun t ht => ?_
  refine .bind ((follows_form .declaration hinner).mono hm (Nat.le_refl 1)) fun first => ?_
  exact .bind (hnext _ (by omega) _ (by omega)) fun _ => .pure _

end statements

theorem nestedDeclaration_ok (bound : Nat) (s : ParserState) :
    ∃ st? s', Parser.nestedDeclaration bound s = .ok st? s' := by
  cases bound <;> rw [Parser.nestedDeclaration, Parser.recover_run] <;> split <;>
    exact ⟨_, _, rfl⟩

/-- The statements of the text from any position on. No declaration gives up, so the loop goes on
to the end of the text. -/
theorem program_run {c : Cursor text} (hc : c.position ≤ text.length) :
    ∃ ss d, program c = .ok (.ok ss, d) ∧ d.position = text.length := by
  induction hn : c.left using Nat.strongRecOn generalizing c with
  | ind n ih =>
    rw [program, repeated_run, bind_ok (current_run hc)]
    cases ht : text[c.position]? with
    | none =>
      have hend := Nat.le_antisymm hc (List.getElem?_eq_none_iff.1 ht)
      exact ⟨[], c, rfl, hend⟩
    | some t =>
      have hlt : c.position < text.length := (List.getElem?_eq_some_iff.1 ht).1
      have hleft : c.left = text.length - c.position := rfl
      obtain ⟨first, d, hrun, -, hmoved, hd, hfurther⟩ | ⟨d, -, hgave, -, -⟩ :=
        follows_form .declaration (Nat.le_refl c.left) c hc (Nat.le_refl _)
      · have hdleft : d.left = text.length - d.position := rfl
        obtain ⟨ss, e, hrest, he⟩ := ih d.left (by omega) hd rfl
        have honward : Onward text c.position d.position := ⟨by omega, hd⟩
        refine ⟨first.toList ++ ss, e, ?_, he⟩
        refine (bind_ok hrun _).trans ((bind_ok ?_ _).trans rfl)
        rw [if_pos honward]
        exact hrest
      · obtain ⟨st?, s, hok⟩ := nestedDeclaration_ok c.left c.state
        cases hok.symm.trans hgave

/-- The cursor at the start of a text. -/
def start (text : List Token) : Cursor text := ⟨0, []⟩

theorem state_start (text : List Token) : (start text).state = ⟨text, []⟩ := rfl

theorem program_ok (text : List Token) : ∃ ss, ∃ d : Cursor text,
    program (start text) = .ok (.ok ss, d) ∧ d.position = text.length ∧
      Parser.program (Parser.nestedDeclaration text.length) text.length ⟨text, []⟩ =
        .ok ss d.state := by
  obtain ⟨ss, d, hrun, hend⟩ := program_run (c := start text) (Nat.zero_le _)
  obtain ⟨a, e, hr, hp, -⟩ | ⟨e, hr, -⟩ := follows_program (n := text.length) (Nat.le_refl _)
    (Nat.le_refl _) (start text) (Nat.zero_le _) (Nat.sub_le _ _)
  · cases hrun.symm.trans hr
    exact ⟨ss, d, hrun, hend, hp⟩
  · cases hrun.symm.trans hr

/-- Every text is parsed: no rule goes astray, the rules end without going back and within the text,
and the parser over positions comes to what the parser makes of the tokens. A whole text is read
to its end, and neither entry gives up. -/
theorem parse_total (text : List Token) :
    (∀ (f : Form) (c : Cursor text), c.position ≤ text.length →
      ∃ r d, form f c = .ok (r, d) ∧ c.position ≤ d.position ∧ d.position ≤ text.length) ∧
    (∀ c : Cursor text, c.position ≤ text.length →
      ∃ r d, expression c = .ok (r, d) ∧ c.position ≤ d.position ∧ d.position ≤ text.length) ∧
    (∃ d, program (start text) = .ok (.ok (Parse.program text).value, d) ∧
      d.position = text.length ∧ d.complaints.reverse = (Parse.program text).complaints) ∧
    ∃ d, bareExpression (start text) = .ok (.ok (Parse.expression text).value, d) ∧
      d.position ≤ text.length ∧ d.complaints.reverse = (Parse.expression text).complaints := by
  have hends {α : Type} {rule : Rule text α} {parser : Parser α} {k : Nat} (c : Cursor text)
      (h : Follows text c.left k rule parser) (hc : c.position ≤ text.length) :
      ∃ r d, rule c = .ok (r, d) ∧ c.position ≤ d.position ∧ d.position ≤ text.length := by
    obtain ⟨a, d, hr, -, hmoved, hd, -⟩ | ⟨d, hr, -, hmoved, hd⟩ := h c hc (Nat.le_refl _)
    · exact ⟨_, d, hr, hmoved, hd⟩
    · exact ⟨_, d, hr, hmoved, hd⟩
  refine ⟨fun f c => hends c (follows_form f (Nat.le_refl _)),
    fun c => hends c (follows_expression (Nat.le_refl _)), ?_, ?_⟩
  · obtain ⟨ss, d, hrun, hend, hp⟩ := program_ok text
    rw [Parse.program_of_run hp]
    exact ⟨d, hrun, hend, rfl⟩
  · unfold Parse.expression EStateM.run
    obtain ⟨e, d, hr, hp, -, hd, -⟩ | ⟨d, hr, hp, -, hd⟩ := follows_soleExpression
      (n := text.length) (Nat.le_refl _) (start text) (Nat.zero_le _) (Nat.sub_le _ _)
    · rw [state_start] at hp
      simp only [hp]
      exact ⟨d, catch_ok hr _, hd, rfl⟩
    · rw [state_start] at hp
      simp only [hp]
      exact ⟨d, catch_error hr _, hd, rfl⟩

end Lox.Cursor

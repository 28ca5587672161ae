import Lox.Proofs.Joining
import Mathlib.Data.List.TakeWhile

/-! Lexemes scanned again. What may be written for a token is read as that token wherever a blank
follows it, so that the lexemes of a text, with one blank between any two of them, hold its tokens
again and nothing else. -/

namespace Lox
namespace Token
variable {c : Char} {cs l : List Char} {kind : Kind}

theorem isBlank_of_isWordPart (hc : isWordPart c = true) : isBlank c = false := by
  by_contra hb
  have hstop := (stop_of_isBlank (by simpa using hb)).word
  rw [hc] at hstop
  cases hstop

theorem munch_of_isWordStart (hc : isWordStart c = true) :
    munch c cs = munchWord (c :: cs) := by
  have hblank := isBlank_of_isWordPart (by rw [isWordPart, hc]; rfl)
  have hslash : c ≠ '/' := by
    rintro rfl
    exact absurd hc (by decide)
  simp [munch, hblank, hslash, hc]

theorem munch_of_isDigit (hc : c.isDigit = true) : munch c cs = munchNumber (c :: cs) := by
  have hblank := isBlank_of_isWordPart (by rw [isWordPart, hc, Bool.or_true])
  have hslash : c ≠ '/' := by
    rintro rfl
    exact absurd hc (by decide)
  have hword : isWordStart c = false := by
    by_contra hword
    have hdigit := not_isDigit_of_isWordStart (by simpa using hword)
    rw [hc] at hdigit
    cases hdigit
  simp [munch, hblank, hslash, hword, hc]

theorem munch_of_signLike (hc : SignLike c) (hblank : isBlank c = false)
    (happart : cs.head? ≠ some '/') : munch c cs = munchSign c cs := by
  simp [munch, hblank, happart, hc.word, hc.digit, hc.quote]

/-- Taken off the text that is its lexeme, the token leaves nothing. -/
def Reads (kind : Kind) (l : List Char) : Prop :=
  ∃ c cs, l = c :: cs ∧ isBlank c = false ∧ munch c cs = ⟨.token kind, l, []⟩

theorem reads_word (hc : isWordStart c = true) (hcs : ∀ d ∈ cs, isWordPart d = true) :
    Reads (Kind.ofWord (String.ofList (c :: cs))) (c :: cs) := by
  have hpart : isWordPart c = true := by rw [isWordPart, hc]; rfl
  have hall : ∀ d ∈ c :: cs, isWordPart d = true := List.forall_mem_cons.2 ⟨hpart, hcs⟩
  refine ⟨c, cs, rfl, isBlank_of_isWordPart hpart, ?_⟩
  rw [munch_of_isWordStart hc, munchWord, List.takeWhile_eq_self_iff.2 hall,
    List.dropWhile_eq_nil_iff.2 hall]

theorem reads_number {kind : Kind} (hc : c.isDigit = true)
    (h : munchNumber (c :: cs) = ⟨.token kind, c :: cs, []⟩) : Reads kind (c :: cs) := by
  refine ⟨c, cs, rfl, isBlank_of_isWordPart ?_, (munch_of_isDigit hc).trans h⟩
  rw [isWordPart, hc, Bool.or_true]

theorem munchNumber_whole (hcs : ∀ d ∈ cs, d.isDigit = true) :
    munchNumber cs = ⟨.token (.literal (.number (numberOf cs []))), cs, []⟩ := by
  rw [munchNumber_eq, List.takeWhile_eq_self_iff.2 hcs, List.dropWhile_eq_nil_iff.2 hcs]
  simp [splitFraction]

theorem munchNumber_fraction {es : List Char} (hcs : ∀ d ∈ cs, d.isDigit = true) (hes : es ≠ [])
    (hbehind : ∀ e ∈ es, e.isDigit = true) :
    munchNumber (cs ++ '.' :: es) =
      ⟨.token (.literal (.number (numberOf cs es))), cs ++ '.' :: es, []⟩ := by
  obtain ⟨e, es, rfl⟩ := List.exists_cons_of_ne_nil hes
  obtain ⟨hwhole, hrest⟩ := takeWhile_isDigit_fraction (e :: es) hcs
  rw [munchNumber_eq, hwhole, hrest]
  simp only [splitFraction, if_pos (hbehind e List.mem_cons_self),
    List.takeWhile_eq_self_iff.2 hbehind, List.dropWhile_eq_nil_iff.2 hbehind]
  rfl

theorem reads_sign (hc : SignLike c) (hblank : isBlank c = false) (hcs : cs.head? ≠ some '/')
    (h : munchSign c cs = ⟨.token kind, c :: cs, []⟩) : Reads kind (c :: cs) :=
  ⟨c, cs, rfl, hblank, (munch_of_signLike hc hblank hcs).trans h⟩

theorem ofWord_of_mem_words {word : String} (h : (word, kind) ∈ Kind.words) :
    Kind.ofWord word = kind := by
  have hall : ∀ p ∈ Kind.words, Kind.ofWord p.1 = p.2 := by decide
  exact hall _ h

theorem ofWord_of_free {word : String} (h : ∀ kind, (word, kind) ∉ Kind.words) :
    Kind.ofWord word = .identifier := by
  have hlookup : Kind.words.lookup word = none := by
    rw [Option.eq_none_iff_forall_ne_some]
    intro kind hkind
    exact h kind (mem_of_lookup hkind)
  rw [Kind.ofWord, hlookup]
  rfl

/-- Whatever may be written for a token is read as that token. -/
theorem reads_of_written (h : kind.Written l) : Reads kind l := by
  have hsigns : ∀ p ∈ Kind.signs, SignLike p.1 ∧ isBlank p.1 = false ∧
      Kind.extensibleSigns.lookup p.1 = none := by decide
  have hextensible : ∀ p ∈ Kind.extensibleSigns, SignLike p.1 ∧ isBlank p.1 = false := by decide
  cases h with
  | word listed =>
    obtain ⟨d, ds, hword, hd, hds⟩ := word_shape listed
    have hreads := reads_word hd hds
    rwa [← hword, String.ofList_toList, ofWord_of_mem_words listed] at hreads
  | name first others free =>
    rw [← ofWord_of_free free]
    apply reads_word
    · simpa [isWordStart] using first
    · intro d hd
      rw [isWordPart_iff]
      exact others d hd
  | whole some_ digits =>
    obtain ⟨d, ds, rfl⟩ := List.exists_cons_of_ne_nil some_
    exact reads_number (digits d List.mem_cons_self) (munchNumber_whole digits)
  | fraction some_ digits someBehind digitsBehind =>
    obtain ⟨d, ds, rfl⟩ := List.exists_cons_of_ne_nil some_
    have hmunch := munchNumber_fraction digits someBehind digitsBehind
    rw [List.cons_append] at hmunch ⊢
    exact reads_number (digits d List.mem_cons_self) hmunch
  | string inside => exact ⟨'"', _, rfl, by decide, munchString_closed inside []⟩
  | sign listed =>
    obtain ⟨hlike, hblank, hlone⟩ := hsigns _ listed
    apply reads_sign hlike hblank (by simp)
    rw [munchSign, hlone, lookup_signs listed]
  | alone listed =>
    obtain ⟨hlike, hblank⟩ := hextensible _ listed
    apply reads_sign hlike hblank (by simp)
    rw [munchSign, lookup_extensibleSigns listed]
  | paired listed =>
    obtain ⟨hlike, hblank⟩ := hextensible _ listed
    apply reads_sign hlike hblank (by simp)
    rw [munchSign, lookup_extensibleSigns listed]
    rfl

/-- The token is written as its kind may be. -/
def Legible (t : Token) : Prop := t.kind.Written t.lexeme.toList

/-- What a token is, wherever it stands. -/
def unplaced (t : Token) : Kind × String := (t.kind, t.lexeme)

end Token

theorem Tiling.legible {before left : List Char} {ts : List Token} {es : List StaticError}
    (h : Tiling before left ts es) : ∀ t ∈ ts, t.Legible := by
  induction h with
  | done => simp
  | blank _ _ ih => exact ih
  | comment _ _ _ ih => exact ih
  | token written _ _ _ ih =>
    refine List.forall_mem_cons.2 ⟨?_, ih⟩
    rw [Token.Legible, String.toList_ofList]
    exact written
  | unexpected _ _ _ _ ih => exact ih
  | unterminated => simp

namespace Piece
variable {kind : Kind} {l rest : List Char} (p : Position)

theorem visible_blanks (h : ∀ c ∈ l, Token.isBlank c = true) : visible p l = [] := by
  induction l generalizing p with
  | nil => exact visible_nil p
  | cons c l ih =>
    obtain ⟨hc, hl⟩ := List.forall_mem_cons.1 h
    rw [visible_blank p l hc, ih _ hl]

theorem visible_written (h : kind.Written l) (hrest : ∀ b ∈ rest.head?, Token.isBlank b = true) :
    visible p (l ++ rest) = ⟨.token kind, l, p⟩ :: visible (p.after l) rest := by
  obtain ⟨c, cs, rfl, hc, hmunch⟩ := Token.reads_of_written h
  cases rest with
  | nil => rw [List.append_nil, visible_munched p cs hc, hmunch]
  | cons b rest =>
    have hb : Token.isBlank b = true := hrest b rfl
    have hstop := Token.munch_stop cs rest hb hc (by simp [hmunch]) (by simp [hmunch])
    rw [List.cons_append, visible_munched p _ hc, hstop, hmunch]
    rfl

theorem visible_intercalate_cons {t : Token} {behind : List Char} (ht : t.Legible)
    (hbehind : ∀ c ∈ behind, Token.isBlank c = true) (lexemes : List (List Char)) :
    ∃ q, visible p ([' '].intercalate (t.lexeme.toList :: lexemes) ++ behind) =
      ⟨.token t.kind, t.lexeme.toList, p⟩ :: visible q ([' '].intercalate lexemes ++ behind) := by
  have hblank : Token.isBlank ' ' = true := by decide
  cases lexemes with
  | nil =>
    have hend : ∀ b ∈ behind.head?, Token.isBlank b = true := by
      intro b hb
      exact hbehind b (List.mem_of_mem_head? hb)
    refine ⟨p.after t.lexeme.toList, ?_⟩
    rw [List.intercalate_singleton, visible_written p ht hend, List.intercalate_nil]
    rfl
  | cons l lexemes =>
    refine ⟨(p.after t.lexeme.toList).next ' ', ?_⟩
    rw [List.intercalate_cons_cons, List.append_assoc, List.append_assoc, List.singleton_append,
      visible_written p ht (by simp [hblank]), visible_blank _ _ hblank]

/-- Tokens written one after the other, with a blank between any two. -/
theorem visible_intercalate {ts : List Token} {behind : List Char} (h : ∀ t ∈ ts, t.Legible)
    (hbehind : ∀ c ∈ behind, Token.isBlank c = true) :
    let pieces := visible p ([' '].intercalate (ts.map (·.lexeme.toList)) ++ behind)
    pieces.filterMap error? = [] ∧
      (pieces.filterMap token?).map Token.unplaced = ts.map Token.unplaced := by
  induction ts generalizing p with
  | nil =>
    rw [List.map_nil, List.intercalate_nil, List.nil_append, visible_blanks p hbehind]
    exact ⟨rfl, rfl⟩
  | cons t ts ih =>
    obtain ⟨ht, hts⟩ := List.forall_mem_cons.1 h
    obtain ⟨q, hpieces⟩ := visible_intercalate_cons p ht hbehind (ts.map (·.lexeme.toList))
    obtain ⟨herrors, htokens⟩ := ih q hts
    rw [List.map_cons, List.map_cons, hpieces, ← htokens]
    refine ⟨herrors, ?_⟩
    simp [token?, Token.unplaced]

end Piece

/-- Between the last lexeme and the empty one of the end there is a blank as well. -/
theorem intercalate_finish (lexemes : List String) {finish : List String}
    (h : finish ∈ [[], [""]]) :
    ∃ behind ∈ ["", " "],
      " ".intercalate (lexemes ++ finish) = " ".intercalate lexemes ++ behind := by
  simp only [List.mem_cons, List.not_mem_nil, or_false] at h
  rcases h with rfl | rfl
  · exact ⟨"", by simp, by simp⟩
  cases lexemes with
  | nil => exact ⟨"", by simp, by simp⟩
  | cons l lexemes =>
    refine ⟨" ", by simp, ?_⟩
    rw [String.intercalate_append_of_ne_nil (by simp) (by simp), String.intercalate_singleton,
      String.append_empty]

namespace Scan

theorem ofText_legible (text : String) : ∀ t ∈ (ofText text).tokens, t.Legible :=
  (ofText_tiling text).1.legible

theorem ofText_intercalate {ts : List Token} (hts : ∀ t ∈ ts, t.Legible) {finish : List String}
    (hfinish : finish ∈ [[], [""]]) :
    let again := ofText (" ".intercalate (ts.map Token.lexeme ++ finish))
    again.errors = [] ∧ again.tokens.map Token.unplaced = ts.map Token.unplaced := by
  obtain ⟨behind, hbehind, htext⟩ := intercalate_finish (ts.map Token.lexeme) hfinish
  have hblanks : ∀ behind ∈ ["", " "], behind.toList.all Token.isBlank = true := by decide
  have hchars : (" ".intercalate (ts.map Token.lexeme ++ finish)).toList =
      [' '].intercalate (ts.map (·.lexeme.toList)) ++ behind.toList := by
    rw [htext, String.toList_append, String.toList_intercalate, List.map_map]
    rfl
  dsimp only
  rw [tokens_of_visible, errors_of_visible, hchars]
  exact Piece.visible_intercalate .start hts (List.all_eq_true.1 (hblanks behind hbehind))

/-- Scanned again, the lexemes of a text are its tokens; so texts with the same lexemes have tokens
of the same kinds. -/
theorem ofText_relexed (text : String) :
    let lexemes := (ofText text).tokens.map Token.lexeme
    (∀ finish ∈ [[], [""]],
      let again := ofText (" ".intercalate (lexemes ++ finish))
      again.errors = [] ∧
        again.tokens.map Token.unplaced = (ofText text).tokens.map Token.unplaced) ∧
    ∀ other : String, (ofText other).tokens.map Token.lexeme = lexemes →
      (ofText other).tokens.map Token.kind = (ofText text).tokens.map Token.kind := by
  intro lexemes
  refine ⟨fun finish hfinish => ofText_intercalate (ofText_legible text) hfinish, ?_⟩
  intro other hother
  have hnone : [] ∈ [[], [""]] := List.mem_cons_self
  obtain ⟨-, hagain⟩ := ofText_intercalate (ofText_legible text) hnone
  obtain ⟨-, hagain'⟩ := ofText_intercalate (ofText_legible other) hnone
  rw [hother, hagain] at hagain'
  have hkinds := congrArg (List.map Prod.fst) hagain'
  rw [List.map_map, List.map_map] at hkinds
  exact hkinds.symm

theorem respaced_relexed :
    let text := "var a=1.5;@// note\n!a.b"
    let other := "var a = 1.5 ; ! a . b"
    (ofText other).tokens.map Token.lexeme = (ofText text).tokens.map Token.lexeme ∧
      (ofText other).tokens.map Token.kind = (ofText text).tokens.map Token.kind := by
  intro text other
  have hlexemes : (ofText other).tokens.map Token.lexeme =
      (ofText text).tokens.map Token.lexeme := by decide +kernel
  exact ⟨hlexemes, (ofText_relexed text).2 other hlexemes⟩

end Scan
end Lox

import SeatMachine.Json.Writer
import SeatMachine.Proofs.Json.Literal
/-!
# Spelling

A token survives being spelled and read. Words need care: a word is known to be complete only when
something else follows it, so the lexer is left holding it. `Lexer.Holds` says which tokens a lexer has
read, a last word included.

`Spells cs tokens` says that characters are read as tokens after any tokens that are complete, and
`Continues` the same after any tokens at all, so that texts can be put together from parts. Literals of
texts and of numbers are spelled by `continues_string` and `spells_number`.
-/
namespace SeatMachine.Json

/-! ## States of the lexer -/

/-- The lexer has read these tokens; the last may be a word that nothing has ended yet. -/
inductive Lexer.Holds : Lexer → List Token → Prop
  | between {tokens : List Token} : Holds ⟨.between, tokens.reverse⟩ tokens
  | word {letters : List Char} {tokens : List Token} {token : Token} :
    Token.ofWord? letters.reverse = some token →
    Holds ⟨.word letters, tokens.reverse⟩ (tokens ++ [token])

namespace Lexer.Holds

variable {lexer : Lexer} {tokens : List Token}

theorem finish_eq (h : Holds lexer tokens) : lexer.finish = some tokens := by
  cases h with
  | between => simp [finish]
  | word hw => simp [finish, hw]

/-- A character that ends words is met as if it stood after a complete token. -/
theorem feed_eq {c : Char} (h : Holds lexer tokens) (hc : endsWord c = true) :
    lexer.feed c = some (enter tokens.reverse c) := by
  cases h with
  | between => rfl
  | word hw => simp [feed, hc, hw]

end Lexer.Holds

/-! ## Spelling tokens -/

/-- After tokens that are complete, the characters are read as these tokens. -/
def Spells (cs : List Char) (tokens : List Token) : Prop :=
  ∀ before : List Token, ∃ lexer,
    cs.foldlM Lexer.feed ⟨.between, before.reverse⟩ = some lexer ∧ lexer.Holds (before ++ tokens)

/-- After any tokens, the characters are read as these tokens. -/
def Continues (cs : List Char) (tokens : List Token) : Prop :=
  ∀ (lexer : Lexer) (before : List Token), lexer.Holds before → ∃ lexer',
    cs.foldlM Lexer.feed lexer = some lexer' ∧ lexer'.Holds (before ++ tokens)

section

variable {cs cs' : List Char} {tokens tokens' : List Token}

theorem Continues.spells (h : Continues cs tokens) : Spells cs tokens :=
  fun before => h _ before .between

theorem Spells.append (h : Spells cs tokens) (h' : Continues cs' tokens') :
    Spells (cs ++ cs') (tokens ++ tokens') := by
  intro before
  obtain ⟨lexer, hl, hh⟩ := h before
  obtain ⟨lexer', hl', hh'⟩ := h' lexer _ hh
  refine ⟨lexer', by simp [List.foldlM_append, hl, hl'], ?_⟩
  rw [← List.append_assoc]
  exact hh'

theorem Continues.append (h : Continues cs tokens) (h' : Continues cs' tokens') :
    Continues (cs ++ cs') (tokens ++ tokens') := by
  intro lexer before hb
  obtain ⟨lexer₁, hl, hh⟩ := h lexer before hb
  obtain ⟨lexer₂, hl', hh'⟩ := h' lexer₁ _ hh
  refine ⟨lexer₂, by simp [List.foldlM_append, hl, hl'], ?_⟩
  rw [← List.append_assoc]
  exact hh'

theorem continues_nil : Continues [] [] :=
  fun lexer before hb => ⟨lexer, rfl, by simpa using hb⟩

/-- A text that spells tokens is cut into them. -/
theorem Spells.ofChars?_eq (h : Spells cs tokens) : Token.ofChars? cs = some tokens := by
  obtain ⟨lexer, hl, hh⟩ := h []
  have hl' : cs.foldlM Lexer.feed Lexer.start = some lexer := hl
  simp [Token.ofChars?, hl', hh.finish_eq]

/-! ## Punctuation -/

theorem Token.ofPunctuation?_eq_some {c : Char} {token : Token} (h : ofPunctuation? c = some token) :
    Lexer.endsWord c = true ∧ ∀ before, Lexer.enter before c = ⟨.between, token :: before⟩ := by
  have hblank : isBlank c = false ∧ c ≠ '"' := by
    constructor
    · cases hb : isBlank c with
      | false => rfl
      | true =>
        simp only [isBlank, Bool.or_eq_true, beq_iff_eq] at hb
        rcases hb with ((rfl | rfl) | rfl) | rfl <;> cases h
    · rintro rfl
      cases h
  constructor
  · simp [Lexer.endsWord, h]
  · intro before
    simp [Lexer.enter, hblank.1, hblank.2, h]

/-- Punctuation can follow anything, and anything can follow it. -/
theorem Spells.punctuation (h : Spells cs tokens) (c : Char) (token : Token)
    (hc : Token.ofPunctuation? c = some token) : Continues (c :: cs) (token :: tokens) := by
  intro lexer before hb
  obtain ⟨hends, henter⟩ := Token.ofPunctuation?_eq_some hc
  obtain ⟨lexer', hl, hh⟩ := h (before ++ [token])
  have hfeed : lexer.feed c = some ⟨.between, (before ++ [token]).reverse⟩ := by
    rw [hb.feed_eq hends, henter, List.reverse_append]
    rfl
  refine ⟨lexer', ?_, by simpa using hh⟩
  rw [List.foldlM_cons, hfeed]
  exact hl

/-! ## Words -/

/-- Letters of a word are collected. -/
theorem foldlM_feed_word :
    ∀ {cs : List Char} (letters : List Char) (before : List Token),
      (∀ c ∈ cs, Lexer.endsWord c = false) →
      cs.foldlM Lexer.feed ⟨.word letters, before⟩ = some ⟨.word (cs.reverse ++ letters), before⟩
  | [], _, _, _ => rfl
  | c :: cs, letters, before, h => by
    have hc : Lexer.endsWord c = false := h c List.mem_cons_self
    have hfeed : Lexer.feed ⟨.word letters, before⟩ c = some ⟨.word (c :: letters), before⟩ := by
      simp [Lexer.feed, hc]
    have ih := foldlM_feed_word (c :: letters) before fun d hd => h d (List.mem_cons_of_mem _ hd)
    simp [List.foldlM_cons, hfeed, ih]

/-- A word without a character that would end it is read as its token. -/
theorem spells_word {word : List Char} {token : Token} (hw : Token.ofWord? word = some token)
    (hends : ∀ c ∈ word, Lexer.endsWord c = false) : Spells word [token] := by
  intro before
  cases word with
  | nil => cases hw
  | cons c cs =>
    have hc : Lexer.endsWord c = false := hends c List.mem_cons_self
    have hfeed : Lexer.feed ⟨.between, before.reverse⟩ c = some ⟨.word [c], before.reverse⟩ := by
      simp only [Lexer.endsWord, Bool.or_eq_false_iff, beq_eq_false_iff_ne, ne_eq,
        Option.isSome_eq_false_iff, Option.isNone_iff_eq_none] at hc
      simp [Lexer.feed, Lexer.enter, hc]
    have hrest := foldlM_feed_word [c] before.reverse fun d hd => hends d (List.mem_cons_of_mem _ hd)
    refine ⟨_, by simp only [List.foldlM_cons, hfeed]; exact hrest, .word ?_⟩
    simpa using hw

theorem spells_null : Spells (Token.chars .null) [.null] :=
  spells_word rfl (by simp [Token.chars, Lexer.endsWord, Token.isBlank, Token.ofPunctuation?])

theorem spells_bool (b : Bool) : Spells (Token.chars (.bool b)) [.bool b] := by
  have hends : ∀ c ∈ Token.chars (.bool b), Lexer.endsWord c = false := by
    cases b <;> simp [Token.chars, Lexer.endsWord, Token.isBlank, Token.ofPunctuation?]
  cases b with
  | true => exact spells_word rfl hends
  | false => exact spells_word rfl hends

theorem Number.IsLiteral.mem_chars {n : Number} (h : n.IsLiteral) {c : Char} (hc : c ∈ n.chars) :
    c = '-' ∨ c = '.' ∨ c = 'e' ∨ c.isDigit = true := by
  simp only [Number.chars_eq, List.mem_append] at hc
  rcases hc with hsign | hwhole | hfraction | hexponent
  · cases hneg : n.negative <;> simp [hneg] at hsign
    exact .inl hsign
  · exact .inr (.inr (.inr (h.wholeDigits c hwhole)))
  · cases hempty : n.fraction.isEmpty <;> simp [Number.fractionChars, hempty] at hfraction
    rcases hfraction with rfl | hfraction
    · exact .inr (.inl rfl)
    · exact .inr (.inr (.inr (h.fractionDigits c hfraction)))
  · cases he : n.exponent with
    | none => simp [Number.exponentChars, he] at hexponent
    | some e =>
      obtain ⟨negative, digits⟩ := e
      have hdigits := (h.exponentDigits (negative, digits) he).2
      cases negative <;> simp [Number.exponentChars, he] at hexponent <;> grind

theorem endsWord_of_isDigit {c : Char} (h : c.isDigit = true) : Lexer.endsWord c = false := by
  have hne : ∀ d : Char, d.isDigit = false → c ≠ d := by
    rintro d hd rfl
    rw [h] at hd
    cases hd
  simp [Lexer.endsWord, Token.isBlank, Token.ofPunctuation?, hne ' ' rfl, hne '\t' rfl, hne '\n' rfl,
    hne '\r' rfl, hne '"' rfl, hne '[' rfl, hne ']' rfl, hne '\x7b' rfl, hne '\x7d' rfl, hne ',' rfl,
    hne ':' rfl]

/-- A number is spelled by its literal. -/
theorem spells_number {n : Number} (h : n.IsLiteral) : Spells (Token.chars (.number n)) [.number n] := by
  have hword : ∀ c : Char, ¬(c = '-' ∨ c = '.' ∨ c = 'e' ∨ c.isDigit = true) → c ∉ n.chars := fun c hc hm =>
    hc (h.mem_chars hm)
  refine spells_word ?_ fun c hc => ?_
  · have hn : n.chars ≠ ['n', 'u', 'l', 'l'] := fun e => hword 'n' (by decide) (by simp [e])
    have ht : n.chars ≠ ['t', 'r', 'u', 'e'] := fun e => hword 't' (by decide) (by simp [e])
    have hf : n.chars ≠ ['f', 'a', 'l', 's', 'e'] := fun e => hword 'f' (by decide) (by simp [e])
    simp [Token.chars, Token.ofWord?, hn, ht, hf, h.ofChars?_chars]
  · rcases h.mem_chars hc with rfl | rfl | rfl | hd
    · decide
    · decide
    · decide
    · exact endsWord_of_isDigit hd

end

/-! ## Literals of texts -/

namespace Text

theorem hexValue?_digitChar : ∀ d, d < 16 → hexValue? (Nat.digitChar d) = some d := by
  decide

/-- The characters that stand for one inside quotes are read as that one. -/
theorem foldlM_feed_escapeChar (c : Char) (units : List Nat) (before : List Token) :
    (escapeChar c).foldlM Lexer.feed ⟨.quoted units, before⟩ =
      some ⟨.quoted (c.toNat :: units), before⟩ := by
  unfold escapeChar
  -- Seven characters have an escape of one letter.
  iterate 7
    split
    · subst_vars; rfl
  split
  · -- A control character without a letter of its own: two hexadecimal digits.
    have h₁ := hexValue?_digitChar (c.toNat / 16) (by omega)
    have h₂ := hexValue?_digitChar (c.toNat % 16) (by omega)
    have h₀ : hexValue? '0' = some 0 := by decide
    have hc : c.toNat / 16 * 16 + c.toNat % 16 = c.toNat := by omega
    simp [Lexer.feed, h₀, h₁, h₂, hc]
  · rename_i hquote hslash _ _ _ _ _ hlow
    simp [Lexer.feed, hquote, hslash, hlow]

theorem foldlM_feed_escape :
    ∀ (cs : List Char) (units : List Nat) (before : List Token),
      (escape cs).foldlM Lexer.feed ⟨.quoted units, before⟩ =
        some ⟨.quoted ((cs.map Char.toNat).reverse ++ units), before⟩
  | [], _, _ => rfl
  | c :: cs, units, before => by
    have ih := foldlM_feed_escape cs (c.toNat :: units) before
    unfold escape at ih ⊢
    simp [List.foldlM_append, foldlM_feed_escapeChar, ih]

/-- A text is spelled by its literal, whatever stands before. -/
theorem continues_literal (s : String) : Continues (Token.chars (.string (some s))) [.string (some s)] := by
  intro lexer before hb
  have hopen : lexer.feed '"' = some ⟨.quoted [], before.reverse⟩ := by
    rw [hb.feed_eq (by decide)]
    rfl
  have hclose : Lexer.feed ⟨.quoted (s.toList.map Char.toNat).reverse, before.reverse⟩ '"' =
      some ⟨.between, (before ++ [Token.string (some s)]).reverse⟩ := by
    simp [Lexer.feed, Lexer.emit, textOfUnits?, ofUnits?_map_toNat]
  refine ⟨⟨.between, (before ++ [Token.string (some s)]).reverse⟩, ?_, .between⟩
  simp [Token.chars, literal, List.foldlM_append, hopen, foldlM_feed_escape, hclose]

/-- Every literal is spelled, also that of a lone surrogate, which denotes no text. -/
theorem continues_string : ∀ s : Option String, Continues (Token.chars (.string s)) [.string s]
  | some s => continues_literal s
  | none => by
    intro lexer before hb
    have hopen : lexer.feed '"' = some ⟨.quoted [], before.reverse⟩ := by
      rw [hb.feed_eq (by decide)]
      rfl
    have hrest : ['\\', 'u', 'd', '8', '0', '0', '"'].foldlM Lexer.feed ⟨.quoted [], before.reverse⟩ =
        some ⟨.between, (before ++ [Token.string none]).reverse⟩ := by
      rw [List.reverse_append]
      rfl
    refine ⟨⟨.between, (before ++ [Token.string none]).reverse⟩, ?_, .between⟩
    rw [Token.chars, literal, List.foldlM_cons, hopen]
    exact hrest

end Text

end SeatMachine.Json

import SeatMachine.Proofs.Json.RoundTrip
/-!
# The indented layout

The indented text of a value spells the same tokens as its compact text, because blanks stand only where a
token is complete or completed by them (`Spells.blank`). So it is read back as the same value:
`parse?_indented`.
-/
namespace SeatMachine.Json

section

variable {cs : List Char} {tokens : List Token}

/-! ## Blanks -/

/-- A blank ends whatever stands before it and spells nothing. -/
theorem Spells.blank (h : Spells cs tokens) {c : Char} (hc : Token.isBlank c = true) :
    Continues (c :: cs) tokens := by
  intro lexer before hb
  have hends : Lexer.endsWord c = true := by simp [Lexer.endsWord, hc]
  have hfeed : lexer.feed c = some ⟨.between, before.reverse⟩ := by
    rw [hb.feed_eq hends]
    simp [Lexer.enter, hc]
  obtain ⟨lexer', hl, hh⟩ := h before
  refine ⟨lexer', ?_, hh⟩
  rw [List.foldlM_cons, hfeed]
  exact hl

theorem Spells.spaces (h : Spells cs tokens) (n : Nat) : Spells (List.replicate n ' ' ++ cs) tokens := by
  induction n with
  | zero => simpa using h
  | succ n ih => simpa [List.replicate_succ] using (ih.blank (c := ' ') rfl).spells

/-- A new line spells nothing, whatever stands before it and however far it is indented. -/
theorem Spells.newLine (h : Spells cs tokens) (level : Nat) : Continues (newLine level ++ cs) tokens := by
  simpa [Json.newLine] using (h.spaces (2 * level)).blank (c := '\n') rfl

/-! ## Items and members -/

theorem continues_moreIndentedItems (level : Nat) : ∀ {items : List Json},
    (∀ item ∈ items, Spells (indentedChars (level + 1) item) item.tokens) →
      Continues (moreIndentedItems level items) (moreItemTokens items ++ [.closeArray])
  | [], _ => continues_closeArray.spells.newLine level
  | item :: items, h => by
    have hitem := h item List.mem_cons_self
    have hrest := continues_moreIndentedItems level fun x hx => h x (List.mem_cons_of_mem _ hx)
    have hall := ((hitem.append hrest).newLine (level + 1)).spells.punctuation ',' .comma rfl
    simpa [moreIndentedItems, moreItemTokens] using hall

theorem continues_indentedMember (level : Nat) (name : String) (h : Spells cs tokens) :
    Continues (newLine level ++ Text.literal (some name) ++ ':' :: ' ' :: cs)
      (.string (some name) :: .colon :: tokens) := by
  have hcolon := (h.blank (c := ' ') rfl).spells.punctuation ':' .colon rfl
  have hname := (Text.continues_literal name).append hcolon
  simpa [Token.chars] using hname.spells.newLine level

theorem continues_moreIndentedMembers (level : Nat) : ∀ {members : List (String × Json)},
    (∀ member ∈ members, Spells (indentedChars (level + 1) member.2) member.2.tokens) →
      Continues (moreIndentedMembers level (members.map fun m => (some m.1, m.2)))
        (moreMemberTokens (members.map fun m => (some m.1, m.2)) ++ [.closeObject])
  | [], _ => continues_closeObject.spells.newLine level
  | (name, value) :: members, h => by
    have hvalue : Spells (indentedChars (level + 1) value) value.tokens := h (name, value) List.mem_cons_self
    have hrest := continues_moreIndentedMembers level fun m hm => h m (List.mem_cons_of_mem _ hm)
    have hmember := continues_indentedMember (level + 1) name (hvalue.append hrest)
    simpa [moreIndentedMembers, moreMemberTokens] using hmember.spells.punctuation ',' .comma rfl

end

/-! ## Values -/

theorem spells_indented {j : Json} (h : j.IsRegular) (level : Nat) :
    Spells (indentedChars level j) j.tokens := by
  induction h generalizing level with
  | null => simpa [indentedChars, tokens] using spells_null
  | bool value => simpa [indentedChars, tokens] using spells_bool value
  | @int i _ => simpa [Json.int, indentedChars, tokens] using spells_number (Number.isLiteral_ofInt i)
  | text s => simpa [Json.text, indentedChars, tokens] using (Text.continues_literal s).spells
  | @array items _ ih =>
    cases items with
    | nil =>
      simpa [indentedChars, tokens, itemTokens, Token.chars] using
        (continues_closeArray.spells.punctuation '[' .openArray rfl).spells
    | cons item items =>
      have hitem := ih item List.mem_cons_self (level + 1)
      have hrest := continues_moreIndentedItems level fun x hx => ih x (List.mem_cons_of_mem _ hx) (level + 1)
      have hall := ((hitem.append hrest).newLine (level + 1)).spells.punctuation '[' .openArray rfl
      simpa [indentedChars, tokens, itemTokens] using hall.spells
  | @record members _ ih =>
    cases members with
    | nil =>
      simpa [Json.record, indentedChars, tokens, memberTokens, Token.chars] using
        (continues_closeObject.spells.punctuation '\x7b' .openObject rfl).spells
    | cons member members =>
      obtain ⟨name, value⟩ := member
      have hvalue : Spells (indentedChars (level + 1) value) value.tokens :=
        ih (name, value) List.mem_cons_self (level + 1)
      have hrest := continues_moreIndentedMembers level fun m hm => ih m (List.mem_cons_of_mem _ hm) (level + 1)
      have hmember := continues_indentedMember (level + 1) name (hvalue.append hrest)
      simpa [Json.record, indentedChars, tokens, memberTokens] using
        (hmember.spells.punctuation '\x7b' .openObject rfl).spells

/-- The indented text of a regular value is read back as that value. -/
theorem parse?_indented {j : Json} (h : j.IsRegular) : parse? j.indented = some j := by
  have hchars : Token.ofChars? j.indented.toList = some j.tokens := by
    rw [indented, String.toList_ofList]
    exact (spells_indented h 0).ofChars?_eq
  simp [parse?, hchars, ofTokens?_tokens]

end SeatMachine.Json

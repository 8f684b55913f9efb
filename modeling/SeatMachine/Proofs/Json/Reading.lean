import SeatMachine.Proofs.Json.RoundTrip
/-!
# What a text denotes

Reading loses nothing but the layout. A text is cut into tokens exactly if it spells them
(`ofChars?_eq_some_iff`), and tokens are put together to a value exactly if they are the tokens of that value
(`ofTokens?_eq_some_iff`): `Reader.Follows` says at every stage which tokens have been taken in. So a text denotes a
value exactly if it spells the tokens of that value: `parse?_eq_some_iff`.

It follows that a text has as many arrays and objects open at once as its value is deep (`nesting?_of_parse?`), and
that a value that was read can be written again (`isWritable_of_parse?`); it is valid if it is plain.
-/
namespace SeatMachine.Json

/-! ## Cutting into tokens -/

namespace Lexer

/-- The lexer with further tokens before all that it has found. -/
def after (lexer : Lexer) (before : List Token) : Lexer :=
  ⟨lexer.mode, lexer.tokens ++ before.reverse⟩

theorem enter_after (tokens before : List Token) (c : Char) :
    enter (tokens ++ before.reverse) c = (enter tokens c).after before := by
  unfold enter
  split
  · rfl
  · split
    · rfl
    · split <;> rfl

/-- What stands before makes no difference to what is found. -/
theorem feed_after (lexer : Lexer) (before : List Token) (c : Char) :
    (lexer.after before).feed c = (lexer.feed c).map fun l => l.after before := by
  obtain ⟨mode, tokens⟩ := lexer
  cases mode with
  | between => simp [feed, after, enter_after]
  | word letters =>
    by_cases hc : endsWord c = true
    · cases hw : Token.ofWord? letters.reverse with
      | none => simp [feed, after, hc, hw]
      | some token => simpa [feed, after, hc, hw] using enter_after (token :: tokens) before c
    · simp [feed, after, hc]
  | quoted units =>
    simp only [feed, after]
    split
    · simp [emit]
    · split
      · rfl
      · split <;> rfl
  | escape units =>
    simp only [feed, after]
    split
    · rfl
    · cases Text.escapedUnit? c <;> rfl
  | numeric units count value =>
    cases hx : Text.hexValue? c with
    | none => simp [feed, after, hx]
    | some digit =>
      simp only [feed, after, hx]
      split <;> rfl

theorem foldlM_feed_after (cs : List Char) (lexer : Lexer) (before : List Token) :
    cs.foldlM feed (lexer.after before) = (cs.foldlM feed lexer).map fun l => l.after before := by
  induction cs generalizing lexer with
  | nil => rfl
  | cons c cs ih =>
    rw [List.foldlM_cons, List.foldlM_cons, feed_after]
    cases lexer.feed c with
    | none => rfl
    | some lexer' => exact ih lexer'

theorem finish_after (lexer : Lexer) (before : List Token) :
    (lexer.after before).finish = lexer.finish.map fun tokens => before ++ tokens := by
  obtain ⟨mode, found⟩ := lexer
  cases mode with
  | between => simp [finish, after]
  | word letters => cases hw : Token.ofWord? letters.reverse <;> simp [finish, after, hw]
  | quoted units => rfl
  | escape units => rfl
  | numeric units count value => rfl

/-- A lexer that is done has read the tokens it gives. -/
theorem holds_of_finish {lexer : Lexer} {tokens : List Token} (h : lexer.finish = some tokens)
    (before : List Token) : (lexer.after before).Holds (before ++ tokens) := by
  obtain ⟨mode, found⟩ := lexer
  cases mode with
  | between =>
    obtain rfl : found.reverse = tokens := Option.some.inj h
    have hheld : Holds ⟨.between, (before ++ found.reverse).reverse⟩ (before ++ found.reverse) := .between
    simpa [after] using hheld
  | word letters =>
    obtain ⟨token, hw, rfl⟩ := Option.map_eq_some_iff.1 h
    have hheld : Holds ⟨.word letters, (before ++ found.reverse).reverse⟩ (before ++ found.reverse ++ [token]) :=
      .word hw
    simpa [after] using hheld
  | quoted units => cases h
  | escape units => cases h
  | numeric units count value => cases h

end Lexer

theorem spells_of_ofChars? {cs : List Char} {tokens : List Token} (h : Token.ofChars? cs = some tokens) :
    Spells cs tokens := by
  intro before
  obtain ⟨lexer, hlexer, hfinish⟩ := Option.bind_eq_some_iff.1 h
  refine ⟨lexer.after before, ?_, Lexer.holds_of_finish hfinish before⟩
  have hstart : (⟨.between, before.reverse⟩ : Lexer) = Lexer.start.after before := rfl
  rw [hstart, Lexer.foldlM_feed_after, hlexer]
  rfl

/-- A text is cut into the tokens that it spells, and into no others. -/
theorem ofChars?_eq_some_iff {cs : List Char} {tokens : List Token} :
    Token.ofChars? cs = some tokens ↔ Spells cs tokens :=
  ⟨spells_of_ofChars?, Spells.ofChars?_eq⟩

theorem ofChars?_openArray (cs : List Char) :
    Token.ofChars? ('[' :: cs) = (Token.ofChars? cs).map fun tokens => .openArray :: tokens := by
  have hopen : Lexer.start.feed '[' = some (Lexer.start.after [.openArray]) := rfl
  rw [Token.ofChars?, Token.ofChars?, List.foldlM_cons, hopen, Option.bind_eq_bind, Option.bind_some,
    Lexer.foldlM_feed_after]
  cases cs.foldlM Lexer.feed Lexer.start with
  | none => rfl
  | some lexer => exact Lexer.finish_after lexer [.openArray]

/-- What stands before a closing bracket is complete: neither a string nor an escape can reach beyond it. -/
theorem Lexer.finish_of_feed_closeArray {lexer last : Lexer} {tokens : List Token}
    (hfeed : lexer.feed ']' = some last) (hfinish : last.finish = some tokens) :
    ∃ inner, lexer.finish = some inner ∧ tokens = inner ++ [.closeArray] := by
  have henter : ∀ found, enter found ']' = ⟨.between, .closeArray :: found⟩ := fun _ => rfl
  obtain ⟨mode, found⟩ := lexer
  cases mode with
  | between =>
    obtain rfl : enter found ']' = last := Option.some.inj hfeed
    rw [henter] at hfinish
    obtain rfl : (Token.closeArray :: found).reverse = tokens := Option.some.inj hfinish
    exact ⟨found.reverse, rfl, by simp⟩
  | word letters =>
    have hends : endsWord ']' = true := by decide
    simp only [feed, hends, if_true] at hfeed
    obtain ⟨token, hw, rfl⟩ := Option.map_eq_some_iff.1 hfeed
    rw [henter] at hfinish
    obtain rfl : (Token.closeArray :: token :: found).reverse = tokens := Option.some.inj hfinish
    exact ⟨(token :: found).reverse, by simp [finish, hw], by simp⟩
  | quoted units =>
    cases hfeed
    cases hfinish
  | escape units => cases hfeed
  | numeric units count value => cases hfeed

theorem exists_of_ofChars?_closeArray {cs : List Char} {tokens : List Token}
    (h : Token.ofChars? (cs ++ [']']) = some tokens) :
    ∃ inner, Token.ofChars? cs = some inner ∧ tokens = inner ++ [.closeArray] := by
  obtain ⟨last, hlast, hfinish⟩ := Option.bind_eq_some_iff.1 h
  rw [List.foldlM_append] at hlast
  obtain ⟨lexer, hlexer, hclose⟩ := Option.bind_eq_some_iff.1 hlast
  have hfeed : lexer.feed ']' = some last := by simpa using hclose
  obtain ⟨inner, hinner, htokens⟩ := Lexer.finish_of_feed_closeArray hfeed hfinish
  exact ⟨inner, by simp [Token.ofChars?, hlexer, hinner], htokens⟩

/-! ## Putting tokens together -/

theorem moreItemTokens_append (items items' : List Json) :
    moreItemTokens (items ++ items') = moreItemTokens items ++ moreItemTokens items' := by
  induction items with
  | nil => rfl
  | cons item items ih => simp [moreItemTokens, ih]

theorem moreMemberTokens_append (members members' : List (Option String × Json)) :
    moreMemberTokens (members ++ members') = moreMemberTokens members ++ moreMemberTokens members' := by
  induction members with
  | nil => rfl
  | cons member members ih => simp [moreMemberTokens, ih]

namespace Reader

/-- The tokens of items, newest first, that another item follows. -/
def beforeItem (items : List Json) : List Token :=
  itemTokens items.reverse ++ if items.isEmpty then [] else [.comma]

/-- The tokens of members, newest first, that another member follows. -/
def beforeMember (members : List (Option String × Json)) : List Token :=
  memberTokens members.reverse ++ if members.isEmpty then [] else [.comma]

theorem beforeItem_append (item : Json) (items : List Json) :
    beforeItem items ++ item.tokens = itemTokens (item :: items).reverse := by
  rw [List.reverse_cons, beforeItem]
  cases hr : items.reverse with
  | nil => simp [List.reverse_eq_nil_iff.1 hr, itemTokens, moreItemTokens]
  | cons first rest =>
    have hne : items.isEmpty = false := by
      cases items with
      | nil => cases hr
      | cons _ _ => rfl
    simp [hne, itemTokens, moreItemTokens, moreItemTokens_append]

theorem beforeMember_append (name : Option String) (value : Json) (members : List (Option String × Json)) :
    beforeMember members ++ .string name :: .colon :: value.tokens =
      memberTokens ((name, value) :: members).reverse := by
  rw [List.reverse_cons, beforeMember]
  cases hr : members.reverse with
  | nil => simp [List.reverse_eq_nil_iff.1 hr, memberTokens, moreMemberTokens]
  | cons first rest =>
    have hne : members.isEmpty = false := by
      cases members with
      | nil => cases hr
      | cons _ _ => rfl
    simp [hne, memberTokens, moreMemberTokens, moreMemberTokens_append]

/-- The tokens after which these containers are open and wait for a value. -/
inductive Awaits : List Open → List Token → Prop
  | nil : Awaits [] []
  | array (items : List Json) {stack : List Open} {before : List Token} :
    Awaits stack before → Awaits (.array items :: stack) (before ++ .openArray :: beforeItem items)
  | member (members : List (Option String × Json)) (name : Option String) {stack : List Open}
    {before : List Token} : Awaits stack before →
    Awaits (.member members name :: stack)
      (before ++ .openObject :: (beforeMember members ++ [.string name, .colon]))

/-- The tokens that a reader has taken in. -/
inductive Follows : Reader → List Token → Prop
  | value {stack : List Open} {before : List Token} : Awaits stack before → Follows ⟨stack, .value⟩ before
  | firstItem {stack : List Open} {before : List Token} :
    Awaits stack before → Follows ⟨.array [] :: stack, .firstItem⟩ (before ++ [.openArray])
  | firstName {stack : List Open} {before : List Token} :
    Awaits stack before → Follows ⟨.object [] :: stack, .firstName⟩ (before ++ [.openObject])
  | name (members : List (Option String × Json)) {stack : List Open} {before : List Token} :
    Awaits stack before → Follows ⟨.object members :: stack, .name⟩ (before ++ .openObject :: beforeMember members)
  | colon (members : List (Option String × Json)) (name : Option String) {stack : List Open}
    {before : List Token} : Awaits stack before →
    Follows ⟨.member members name :: stack, .colon⟩
      (before ++ .openObject :: (beforeMember members ++ [.string name]))
  | afterItem (item : Json) (items : List Json) {stack : List Open} {before : List Token} :
    Awaits stack before →
    Follows ⟨.array (item :: items) :: stack, .afterValue⟩
      (before ++ .openArray :: itemTokens (item :: items).reverse)
  | afterMember (member : Option String × Json) (members : List (Option String × Json)) {stack : List Open}
    {before : List Token} : Awaits stack before →
    Follows ⟨.object (member :: members) :: stack, .afterValue⟩
      (before ++ .openObject :: memberTokens (member :: members).reverse)
  | done (value : Json) : Follows ⟨[], .done value⟩ value.tokens

variable {stack : List Open} {before : List Token} {token : Token} {reader reader' : Reader}

theorem Awaits.fill (h : Awaits stack before) (value : Json) (hfill : Reader.fill value stack = some reader) :
    reader.Follows (before ++ value.tokens) := by
  cases h with
  | nil =>
    cases hfill
    exact .done value
  | array items h =>
    cases hfill
    rw [List.append_assoc, List.cons_append, beforeItem_append]
    exact .afterItem value items h
  | member members name h =>
    cases hfill
    simp only [List.append_assoc, List.cons_append, List.nil_append, beforeMember_append]
    exact .afterMember (name, value) members h

theorem Awaits.takeValue (h : Awaits stack before) (htake : Reader.takeValue stack token = some reader) :
    reader.Follows (before ++ [token]) := by
  cases token with
  | openArray =>
    cases htake
    exact .firstItem h
  | openObject =>
    cases htake
    exact .firstName h
  | null => exact h.fill .null htake
  | bool value => exact h.fill (.bool value) htake
  | number literal => exact h.fill (.number literal) htake
  | string text => exact h.fill (.string text) htake
  | closeArray => cases htake
  | closeObject => cases htake
  | comma => cases htake
  | colon => cases htake

theorem Awaits.closeArray (h : Awaits stack before) (items : List Json)
    (hclose : close (.array items :: stack) token = some reader) :
    reader.Follows (before ++ .openArray :: itemTokens items.reverse ++ [token]) := by
  cases token with
  | closeArray => simpa [tokens] using h.fill (.array items.reverse) hclose
  | _ => cases hclose

theorem Awaits.closeObject (h : Awaits stack before) (members : List (Option String × Json))
    (hclose : close (.object members :: stack) token = some reader) :
    reader.Follows (before ++ .openObject :: memberTokens members.reverse ++ [token]) := by
  cases token with
  | closeObject => simpa [tokens] using h.fill (.object members.reverse) hclose
  | _ => cases hclose

theorem Awaits.takeName (h : Awaits stack before) (members : List (Option String × Json))
    (htake : Reader.takeName (.object members :: stack) token = some reader) :
    reader.Follows (before ++ .openObject :: beforeMember members ++ [token]) := by
  cases token with
  | string name =>
    cases htake
    simpa using Follows.colon members name h
  | _ => cases htake

/-- A token that is taken in goes behind those before it. -/
theorem Follows.feed (h : reader.Follows before) (hfeed : reader.feed token = some reader') :
    reader'.Follows (before ++ [token]) := by
  cases h with
  | value h => exact h.takeValue hfeed
  | @firstItem stack _ h =>
    -- The array is empty, or its first item begins.
    by_cases ht : token = .closeArray
    · subst ht
      have hclose : close (.array [] :: stack) .closeArray = some reader' := hfeed
      simpa [itemTokens] using h.closeArray [] hclose
    · have htake : Reader.takeValue (.array [] :: stack) token = some reader' := by
        simpa [Reader.feed, ht] using hfeed
      simpa [beforeItem, itemTokens] using (h.array []).takeValue htake
  | @firstName stack _ h =>
    by_cases ht : token = .closeObject
    · subst ht
      have hclose : close (.object [] :: stack) .closeObject = some reader' := hfeed
      simpa [memberTokens] using h.closeObject [] hclose
    · have htake : Reader.takeName (.object [] :: stack) token = some reader' := by
        simpa [Reader.feed, ht] using hfeed
      simpa [beforeMember, memberTokens] using h.takeName [] htake
  | name members h => exact h.takeName members hfeed
  | colon members name h =>
    cases token with
    | colon =>
      cases hfeed
      simpa using Follows.value (h.member members name)
    | _ => cases hfeed
  | @afterItem item items stack _ h =>
    by_cases ht : token = .comma
    · subst ht
      cases hfeed
      simpa [beforeItem] using Follows.value (h.array (item :: items))
    · have hclose : close (.array (item :: items) :: stack) token = some reader' := by
        simpa [Reader.feed, ht] using hfeed
      exact h.closeArray (item :: items) hclose
  | @afterMember member members stack _ h =>
    by_cases ht : token = .comma
    · subst ht
      cases hfeed
      simpa [beforeMember] using Follows.name (member :: members) h
    · have hclose : close (.object (member :: members) :: stack) token = some reader' := by
        simpa [Reader.feed, ht] using hfeed
      exact h.closeObject (member :: members) hclose
  | done value => cases hfeed

theorem Follows.foldlM_feed (tokens : List Token) : ∀ {reader : Reader} {before : List Token},
    reader.Follows before → tokens.foldlM Reader.feed reader = some reader' → reader'.Follows (before ++ tokens) := by
  induction tokens with
  | nil =>
    intro reader before h hfold
    cases hfold
    simpa using h
  | cons token tokens ih =>
    intro reader before h hfold
    obtain ⟨next, hfeed, hrest⟩ := Option.bind_eq_some_iff.1 hfold
    simpa using ih (h.feed hfeed) hrest

theorem Follows.finish (h : reader.Follows before) {value : Json} (hfinish : reader.finish = some value) :
    before = value.tokens := by
  cases h with
  | done value =>
    cases hfinish
    rfl
  | _ => cases hfinish

end Reader

/-- Tokens are put together to the value whose tokens they are, and to no other. -/
theorem ofTokens?_eq_some_iff {tokens : List Token} {j : Json} :
    ofTokens? tokens = some j ↔ tokens = j.tokens := by
  constructor
  · intro h
    obtain ⟨reader, hfold, hfinish⟩ := Option.bind_eq_some_iff.1 h
    have hfollows : reader.Follows ([] ++ tokens) := Reader.Follows.foldlM_feed tokens (.value .nil) hfold
    exact hfollows.finish hfinish
  · rintro rfl
    exact ofTokens?_tokens j

/-! ## Texts -/

theorem isValid_array_iff {items : List Json} : IsValid (.array items) ↔ ∀ item ∈ items, item.IsValid := by
  constructor
  · intro h
    cases h with
    | array h => exact h
  · exact .array

theorem isValid_object_iff {members : List (Option String × Json)} :
    IsValid (.object members) ↔ ∀ member ∈ members, member.1.isSome = true ∧ member.2.IsValid := by
  constructor
  · intro h member hmember
    generalize hj : Json.object members = j at h
    cases h with
    | record h =>
      cases hj
      obtain ⟨m, hm, rfl⟩ := List.mem_map.1 hmember
      exact ⟨rfl, h m hm⟩
    | _ => cases hj
  · intro h
    have hnames : members = (members.map fun m => (m.1.getD "", m.2)).map fun m => (some m.1, m.2) := by
      rw [List.map_map]
      refine (List.map_id _).symm.trans (List.map_congr_left fun m hm => ?_)
      obtain ⟨name, hname⟩ := Option.isSome_iff_exists.1 (h m hm).1
      simp [Prod.ext_iff, hname]
    rw [hnames]
    refine .record fun m hm => ?_
    obtain ⟨m', hm', rfl⟩ := List.mem_map.1 hm
    exact (h m' hm').2

/-- A text denotes the value whose tokens it spells, and no other. -/
theorem parse?_eq_some_iff {text : String} {j : Json} :
    parse? text = some j ↔ Spells text.toList j.tokens := by
  rw [parse?, Option.bind_eq_some_iff]
  constructor
  · rintro ⟨tokens, hchars, htokens⟩
    rw [← ofTokens?_eq_some_iff.1 htokens]
    exact ofChars?_eq_some_iff.1 hchars
  · intro h
    exact ⟨j.tokens, ofChars?_eq_some_iff.2 h, ofTokens?_eq_some_iff.2 rfl⟩

/-- A text has as many arrays and objects open at once as its value is deep. -/
theorem nesting?_of_parse? {text : String} {j : Json} (h : parse? text = some j) :
    nesting? text = some j.depth := by
  rw [nesting?, (parse?_eq_some_iff.1 h).ofChars?_eq, Option.map_some, nesting_eq_depth]

/-! ## Values that were read -/

def Token.AreLiteral (tokens : List Token) : Prop :=
  ∀ n, .number n ∈ tokens → n.IsLiteral

theorem Token.AreLiteral.cons {tokens : List Token} (h : AreLiteral tokens) {token : Token}
    (htoken : ∀ n, token = .number n → n.IsLiteral) : AreLiteral (token :: tokens) := by
  intro n hn
  rcases List.mem_cons.1 hn with heq | hn
  · exact htoken n heq.symm
  · exact h n hn

theorem Token.isLiteral_of_ofWord? {word : List Char} {n : Number} (h : ofWord? word = some (.number n)) :
    n.IsLiteral := by
  unfold ofWord? at h
  split at h
  · cases h
  · split at h
    · cases h
    · split at h
      · cases h
      · obtain ⟨n', hn', heq⟩ := Option.map_eq_some_iff.1 h
        cases heq
        exact Number.isLiteral_of_ofChars? hn'

theorem Token.ofPunctuation?_ne_number {c : Char} {n : Number} : ofPunctuation? c ≠ some (.number n) := by
  unfold ofPunctuation?
  repeat' split
  all_goals simp

namespace Lexer

theorem areLiteral_enter {tokens : List Token} (h : Token.AreLiteral tokens) (c : Char) :
    Token.AreLiteral (enter tokens c).tokens := by
  unfold enter
  split
  · exact h
  · split
    · exact h
    · split
      · next hc => exact h.cons fun n hn => absurd (hn ▸ hc) Token.ofPunctuation?_ne_number
      · exact h

theorem areLiteral_feed {lexer lexer' : Lexer} {c : Char} (h : Token.AreLiteral lexer.tokens)
    (hfeed : lexer.feed c = some lexer') : Token.AreLiteral lexer'.tokens := by
  obtain ⟨mode, tokens⟩ := lexer
  cases mode with
  | between =>
    cases hfeed
    exact areLiteral_enter h c
  | word letters =>
    simp only [feed] at hfeed
    split at hfeed
    · obtain ⟨token, hw, rfl⟩ := Option.map_eq_some_iff.1 hfeed
      exact areLiteral_enter (h.cons fun n hn => Token.isLiteral_of_ofWord? (hn ▸ hw)) c
    · cases hfeed
      exact h
  | quoted units =>
    simp only [feed] at hfeed
    split at hfeed
    · cases hfeed
      exact h.cons fun n hn => Token.noConfusion hn
    · split at hfeed
      · cases hfeed
        exact h
      · split at hfeed
        · cases hfeed
        · cases hfeed
          exact h
  | escape units =>
    simp only [feed] at hfeed
    split at hfeed
    · cases hfeed
      exact h
    · obtain ⟨unit, -, rfl⟩ := Option.map_eq_some_iff.1 hfeed
      exact h
  | numeric units count value =>
    obtain ⟨digit, -, rfl⟩ := Option.map_eq_some_iff.1 hfeed
    split <;> exact h

theorem areLiteral_foldlM (cs : List Char) : ∀ {lexer lexer' : Lexer}, Token.AreLiteral lexer.tokens →
    cs.foldlM feed lexer = some lexer' → Token.AreLiteral lexer'.tokens := by
  induction cs with
  | nil =>
    intro lexer lexer' h hfold
    cases hfold
    exact h
  | cons c cs ih =>
    intro lexer lexer' h hfold
    obtain ⟨next, hfeed, hrest⟩ := Option.bind_eq_some_iff.1 hfold
    exact ih (areLiteral_feed h hfeed) hrest

theorem areLiteral_finish {lexer : Lexer} {tokens : List Token} (h : Token.AreLiteral lexer.tokens)
    (hfinish : lexer.finish = some tokens) : Token.AreLiteral tokens := by
  obtain ⟨mode, found⟩ := lexer
  cases mode with
  | between =>
    cases hfinish
    exact fun n hn => h n (List.mem_reverse.1 hn)
  | word letters =>
    obtain ⟨token, hw, rfl⟩ := Option.map_eq_some_iff.1 hfinish
    have hall : Token.AreLiteral (token :: found) := h.cons fun n hn => Token.isLiteral_of_ofWord? (hn ▸ hw)
    exact fun n hn => hall n (List.mem_reverse.1 hn)
  | quoted units => cases hfinish
  | escape units => cases hfinish
  | numeric units count value => cases hfinish

end Lexer

theorem areLiteral_of_ofChars? {cs : List Char} {tokens : List Token} (h : Token.ofChars? cs = some tokens) :
    Token.AreLiteral tokens := by
  obtain ⟨lexer, hlexer, hfinish⟩ := Option.bind_eq_some_iff.1 h
  have hstart : Token.AreLiteral Lexer.start.tokens := fun n hn => absurd hn List.not_mem_nil
  exact Lexer.areLiteral_finish (Lexer.areLiteral_foldlM cs hstart hlexer) hfinish

theorem mem_moreItemTokens {token : Token} {item : Json} (htoken : token ∈ item.tokens) :
    ∀ {items : List Json}, item ∈ items → token ∈ moreItemTokens items
  | first :: items, h => by
    rw [moreItemTokens, List.mem_cons, List.mem_append]
    rcases List.mem_cons.1 h with rfl | h
    · exact .inr (.inl htoken)
    · exact .inr (.inr (mem_moreItemTokens htoken h))

theorem mem_moreMemberTokens {token : Token} {member : Option String × Json} (htoken : token ∈ member.2.tokens) :
    ∀ {members : List (Option String × Json)}, member ∈ members → token ∈ moreMemberTokens members
  | (name, value) :: members, h => by
    simp only [moreMemberTokens, List.mem_cons, List.mem_append]
    rcases List.mem_cons.1 h with rfl | h
    · exact .inr (.inr (.inr (.inl htoken)))
    · exact .inr (.inr (.inr (.inr (mem_moreMemberTokens htoken h))))

/-- The tokens of an item are among those of its array. -/
theorem mem_tokens_array {token : Token} {item : Json} {items : List Json} (hitem : item ∈ items)
    (htoken : token ∈ item.tokens) : token ∈ (Json.array items).tokens := by
  cases items with
  | nil => cases hitem
  | cons first items =>
    simp only [tokens, itemTokens, List.mem_cons, List.mem_append]
    rcases List.mem_cons.1 hitem with rfl | hitem
    · exact .inr (.inl (.inl htoken))
    · exact .inr (.inl (.inr (mem_moreItemTokens htoken hitem)))

/-- The tokens of a member's value are among those of its object. -/
theorem mem_tokens_object {token : Token} {member : Option String × Json} {members : List (Option String × Json)}
    (hmember : member ∈ members) (htoken : token ∈ member.2.tokens) : token ∈ (Json.object members).tokens := by
  cases members with
  | nil => cases hmember
  | cons first members =>
    obtain ⟨name, value⟩ := first
    simp only [tokens, memberTokens, List.mem_cons, List.mem_append]
    rcases List.mem_cons.1 hmember with rfl | hmember
    · exact .inr (.inl (.inr (.inr (.inl htoken))))
    · exact .inr (.inl (.inr (.inr (.inr (mem_moreMemberTokens htoken hmember)))))

mutual

/-- A value whose numbers are literals is writable. -/
theorem isWritable_of_areLiteral : ∀ {j : Json}, Token.AreLiteral j.tokens → j.IsWritable
  | .null, _ => .null
  | .bool b, _ => .bool b
  | .number n, h => .number (h n (by simp [tokens]))
  | .string s, _ => .string s
  | .array items, h => .array (isWritable_of_items fun item hitem n hn => h n (mem_tokens_array hitem hn))
  | .object members, h =>
    .object (isWritable_of_members fun member hmember n hn => h n (mem_tokens_object hmember hn))
termination_by structural j => j

theorem isWritable_of_items : ∀ {items : List Json}, (∀ item ∈ items, Token.AreLiteral item.tokens) →
    ∀ item ∈ items, item.IsWritable
  | [], _, _, hitem => absurd hitem List.not_mem_nil
  | first :: items, h, item, hitem => by
    rcases List.mem_cons.1 hitem with heq | hitem
    · rw [heq]
      exact isWritable_of_areLiteral (h first List.mem_cons_self)
    · exact isWritable_of_items (fun x hx => h x (List.mem_cons_of_mem _ hx)) item hitem
termination_by structural items => items

theorem isWritable_of_members : ∀ {members : List (Option String × Json)},
    (∀ member ∈ members, Token.AreLiteral member.2.tokens) → ∀ member ∈ members, member.2.IsWritable
  | [], _, _, hmember => absurd hmember List.not_mem_nil
  | (name, value) :: members, h, member, hmember => by
    rcases List.mem_cons.1 hmember with rfl | hmember
    · exact isWritable_of_areLiteral (h (name, value) List.mem_cons_self)
    · exact isWritable_of_members (fun x hx => h x (List.mem_cons_of_mem _ hx)) member hmember
termination_by structural members => members

end

/-- A value that was read can be written. -/
theorem isWritable_of_parse? {text : String} {j : Json} (h : parse? text = some j) : j.IsWritable :=
  isWritable_of_areLiteral (areLiteral_of_ofChars? (parse?_eq_some_iff.1 h).ofChars?_eq)

theorem IsWritable.isValid {j : Json} (h : j.IsWritable) (hplain : j.isPlain = true) : j.IsValid := by
  induction h with
  | null => exact .null
  | bool value => exact .bool value
  | number hn => exact .number hn hplain
  | string s =>
    cases s with
    | none => cases hplain
    | some s => exact .text s
  | array _ ih =>
    rw [isPlain, itemsPlain_eq_all, List.all_eq_true] at hplain
    exact .array fun item hitem => ih item hitem (hplain item hitem)
  | object _ ih =>
    rw [isPlain, membersPlain_eq_all, List.all_eq_true] at hplain
    refine isValid_object_iff.2 fun member hmember => ?_
    obtain ⟨hname, hvalue⟩ := Bool.and_eq_true_iff.1 (hplain member hmember)
    exact ⟨hname, ih member hmember hvalue⟩

/-- A value that was read is valid if it is plain. -/
theorem isValid_of_parse? {text : String} {j : Json} (h : parse? text = some j) (hplain : j.isPlain = true) :
    j.IsValid :=
  (isWritable_of_parse? h).isValid hplain

/-! ## Lists of texts -/

/-- Texts with commas between them spell their values as the items of an array. -/
theorem spells_items : ∀ {items : List (String × Json)}, (∀ item ∈ items, parse? item.1 = some item.2) →
    Spells (",".intercalate (items.map Prod.fst)).toList (itemTokens (items.map Prod.snd))
  | [], _ => continues_nil.spells
  | [item], h => by
    have hitem := parse?_eq_some_iff.1 (h item List.mem_cons_self)
    simpa [itemTokens, moreItemTokens] using hitem
  | item :: second :: items, h => by
    have hitem := parse?_eq_some_iff.1 (h item List.mem_cons_self)
    have hrest := spells_items fun x hx => h x (List.mem_cons_of_mem _ hx)
    have hall := hitem.append (hrest.punctuation ',' .comma rfl)
    simpa [itemTokens, moreItemTokens] using hall

/-- In brackets, texts with commas between them spell the array of their values. -/
theorem spells_array {items : List (String × Json)} (h : ∀ item ∈ items, parse? item.1 = some item.2) :
    Spells ("[" ++ ",".intercalate (items.map Prod.fst) ++ "]").toList (Json.array (items.map Prod.snd)).tokens := by
  have hopen := ((spells_items h).append continues_closeArray).punctuation '[' .openArray rfl
  simpa [tokens, Token.chars] using hopen.spells

/-- What stands between the brackets of a text with one item is a text of that item. -/
theorem parse?_of_brackets {text : String} {j : Json} (h : parse? ("[" ++ text ++ "]") = some (.array [j])) :
    parse? text = some j := by
  have hchars : ("[" ++ text ++ "]").toList = '[' :: (text.toList ++ [']']) := by simp
  have htokens := (parse?_eq_some_iff.1 h).ofChars?_eq
  rw [hchars, ofChars?_openArray, Option.map_eq_some_iff] at htokens
  obtain ⟨tokens, htokens, hopen⟩ := htokens
  obtain ⟨inner, hinner, rfl⟩ := exists_of_ofChars?_closeArray htokens
  have heq : inner = j.tokens := by simpa [tokens, itemTokens, moreItemTokens] using hopen
  rw [parse?_eq_some_iff, ← heq]
  exact spells_of_ofChars? hinner

end SeatMachine.Json
